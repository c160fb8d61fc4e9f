import Mathlib.Data.List.Forall2
import Mathlib.Data.List.Perm.Basic
import TypedForest.Proofs.Metamodel.Inheritance
import TypedForest.Proofs.Schema.Faithful

/-!
# Look-ups that do not depend on the order of entries

The ways back from pointers are searches: for a concept of a given key, and for a
property of a given key.  The order of the concepts of a language, and of the entries for
the properties of a concept, means nothing, and no search depends on it.  At most one entry
matches: types are concepts of a language only once, and their keys determine them; the
properties of a concept are looked up by name and searched by key, and over the whole
history of a language the two are the same.

The keys alone do not tell the concepts of several languages apart.  A language `a` with
a type `b-c` and a language `a-b` with a type `c` both have a concept of the key `a-b-c`.
In a registry it is the language and the version of a pointer that do so.

## Main Definitions

* `Language.Drawn`: the language was made from metamodels that were built.
* `Language.Orderly`: no two of its entries match the same pointer.
* `Language.conceptsAt`, `Language.featuresAt`: all entries that match a pointer.
* `Language.Reordered`, `Registry.Reordered`: the same entries in another order.
* `Schema.Agree`: two schemas give the same answers.

## Main Results

* `Language.Orderly.conceptsAt_eq`, `Language.Orderly.featuresAt_eq`: the answer is all
  that matches.
* `Language.Orderly.agree`: the order of the entries does not matter.
* `Schema.lookups_determinate`: both, and the ways lead back, for languages and
  registries.
-/

namespace TypedForest

/-- The schemas give the same answers. -/
structure Schema.Agree {σ : Type} [Schema σ] (schema schema' : σ) : Prop where
  ofType?_eq : ∀ type, Schema.ofType? schema type = Schema.ofType? schema' type
  ofProperty?_eq : ∀ type property,
    Schema.ofProperty? schema type property = Schema.ofProperty? schema' type property
  toType?_eq : ∀ pointer, Schema.toType? schema pointer = Schema.toType? schema' pointer
  toProperty?_eq : ∀ type pointer,
    Schema.toProperty? schema type pointer = Schema.toProperty? schema' type pointer

/-- The same concept, with its properties in another order. -/
structure Concept.Reordered (c c' : Concept) : Prop where
  type_eq : c'.type = c.type
  key_eq : c'.key = c.key
  properties_perm : c.properties.entries.Perm c'.properties.entries

namespace Language

/-- The language was made by adding concepts from metamodels that were built, with or
without success. -/
inductive Drawn : Language → Prop
  | new (key version : String) : Drawn { key, version }
  | enroll {l : Language} {m : Metamodel} (hl : Drawn l) (hm : m.Built) (types : List String) :
      Drawn (outcome (Language.enroll m types l))

/-- No two entries of the language match the same pointer. -/
structure Orderly (l : Language) : Prop where
  keyed : l.Keyed
  nodup_types : l.types.Nodup

/-- The concepts that match a pointer. -/
def conceptsAt (l : Language) (p : Pointer) : List Concept :=
  if l.owns p then l.concepts.filter fun c => some c.key == p.key else []

/-- The entries for properties of a type, a name and a key each, that match a pointer. -/
def featuresAt (l : Language) (type : String) (p : Pointer) : List (String × String) :=
  if l.owns p then
    (l.concepts.filter fun c => c.type == type).flatMap fun c =>
      c.properties.entries.filter fun entry => some entry.2 == p.key
  else []

/-- The same language, with its concepts and their properties in another order. -/
structure Reordered (l l' : Language) : Prop where
  key_eq : l'.key = l.key
  version_eq : l'.version = l.version
  concepts_perm : ∃ shuffle : Concept → Concept,
    (∀ c ∈ l.concepts, c.Reordered (shuffle c)) ∧ (l.concepts.map shuffle).Perm l'.concepts

end Language

namespace Registry

/-- The concepts that match a pointer, in whichever language. -/
def conceptsAt (r : Registry) (p : Pointer) : List Concept :=
  r.languages.flatMap fun l => l.conceptsAt p

/-- The entries for properties of a type that match a pointer, in the language of the
type. -/
def featuresAt (r : Registry) (type : String) (p : Pointer) : List (String × String) :=
  (r.languageOf? type).toList.flatMap fun l => l.featuresAt type p

/-- No two entries of the registry match the same pointer. -/
structure Orderly (r : Registry) : Prop where
  languages : ∀ l ∈ r.languages, l.Orderly
  nodup : (r.languages.map fun l => (l.key, l.version)).Nodup

/-- The same languages in the same order, each with its entries in another order. -/
def Reordered (r r' : Registry) : Prop :=
  List.Forall₂ Language.Reordered r.languages r'.languages

end Registry

/-! ### Searches with one answer -/

section

variable {α : Type}

/-- If no two items pass a test, those that pass are the one that is found. -/
theorem filter_eq_toList_find? {p : α → Bool} {l : List α}
    (h : l.Pairwise fun a b => p a = true → p b = false) : l.filter p = (l.find? p).toList := by
  induction h with
  | nil => rfl
  | @cons a l ha _ ih =>
      by_cases hp : p a = true
      · have hrest : l.filter p = [] :=
          List.filter_eq_nil_iff.mpr fun b hb => by simp [ha b hb hp]
        rw [List.filter_cons_of_pos hp, List.find?_cons_of_pos hp, hrest]
        rfl
      · rw [List.filter_cons_of_neg hp, List.find?_cons_of_neg hp, ih]

/-- With distinct keys, the items of a key are the one that is found. -/
theorem filter_key_eq {κ : Type} [BEq κ] [LawfulBEq κ] (key : α → κ) {l : List α}
    (h : (l.map key).Nodup) (k : κ) :
    l.filter (fun a => key a == k) = (l.find? fun a => key a == k).toList := by
  refine filter_eq_toList_find? ((List.pairwise_map.mp h).imp ?_)
  intro a b hne ha
  rw [beq_iff_eq] at ha
  exact beq_eq_false_iff_ne.mpr fun hb => hne (ha.trans hb.symm)

theorem filter_key?_eq {κ : Type} [BEq κ] [LawfulBEq κ] (key : α → κ) {l : List α}
    (h : (l.map key).Nodup) (k? : Option κ) :
    l.filter (fun a => some (key a) == k?) =
      (k?.bind fun k => l.find? fun a => key a == k).toList := by
  cases k? with
  | none => simp
  | some k =>
      rw [Option.bind_some, ← filter_key_eq key h k]
      exact List.filter_congr fun a _ => Option.some_beq_some

/-- Items that contribute nothing can be left out. -/
theorem flatMap_eq_flatMap_filter {β : Type} {p : α → Bool} {part : α → List β} {l : List α}
    (h : ∀ a ∈ l, p a = false → part a = []) : l.flatMap part = (l.filter p).flatMap part := by
  induction l with
  | nil => rfl
  | cons a l ih =>
      obtain ⟨ha, hrest⟩ := List.forall_mem_cons.mp h
      rw [List.flatMap_cons, ih hrest]
      cases hp : p a with
      | true => rw [List.filter_cons_of_pos hp, List.flatMap_cons]
      | false => rw [List.filter_cons_of_neg (by simp [hp]), ha hp, List.nil_append]

/-- Searches among related items for related items end at related items. -/
theorem rel_find? {R : α → α → Prop} {p : α → Bool} {l l' : List α} (h : List.Forall₂ R l l')
    (hp : ∀ a b, R a b → p a = p b) : Option.Rel R (l.find? p) (l'.find? p) := by
  induction h with
  | nil => exact .none
  | @cons a b l l' hab _ ih =>
      rw [List.find?_cons, List.find?_cons, ← hp a b hab]
      cases p a with
      | true => exact .some hab
      | false => exact ih

theorem exists_of_mem_right {R : α → α → Prop} {l l' : List α} (h : List.Forall₂ R l l') {b : α}
    (hb : b ∈ l') : ∃ a ∈ l, R a b := by
  induction h with
  | nil => cases hb
  | @cons a c l l' hac _ ih =>
      rcases List.mem_cons.mp hb with rfl | hb
      · exact ⟨a, List.mem_cons_self, hac⟩
      · obtain ⟨d, hd, hdb⟩ := ih hb
        exact ⟨d, List.mem_cons_of_mem _ hd, hdb⟩

theorem eq_of_perm_toList {a b : Option α} (h : a.toList.Perm b.toList) : a = b := by
  cases a with
  | none =>
      cases b with
      | none => rfl
      | some b => exact absurd h.length_eq (by simp)
  | some a =>
      cases b with
      | none => exact absurd h.length_eq (by simp)
      | some b => simpa using h

end

namespace Language

variable {l l' : Language} {m : Metamodel}

/-! ### Orderly languages -/

theorem Orderly.enter (hl : l.Orderly) (type : String) : (l.enter type).Orderly where
  keyed := hl.keyed.enter type
  nodup_types := by
    unfold Language.enter
    split
    · exact hl.nodup_types
    case isFalse hnew =>
      have hnot : type ∉ l.types := fun h => hnew (isSome_concept? h)
      show ((l.concepts ++ [_]).map Concept.type).Nodup
      rw [List.map_append, List.map_singleton, ← List.concat_eq_append]
      exact hl.nodup_types.concat hnot

theorem Orderly.setFeatures (hl : l.Orderly) (registered : List String) (type : String)
    (t : NodeType) : (l.setFeatures registered type t).Orderly where
  keyed := hl.keyed.setFeatures registered type t
  nodup_types := by
    rw [types_setFeatures]
    exact hl.nodup_types

theorem Drawn.orderly (h : l.Drawn) : l.Orderly := by
  induction h with
  | new key version => exact ⟨⟨by simp, by simp⟩, List.nodup_nil⟩
  | @enroll l m _ _ types ih =>
      have hkeeps : Keeps Orderly (Language.enroll m types) :=
        keeps_enroll m types (fun _ type hl => hl.enter type)
          fun _ registered type t hl => hl.setFeatures registered type t
      exact hkeeps l ih

theorem Drawn.built (h : l.Drawn) : l.Built := by
  induction h with
  | new key version => exact .new key version
  | @enroll l m _ _ types ih =>
      cases hrun : Language.enroll m types l with
      | ok a l' => exact .enrolled ih hrun
      | error e l' => exact .abandoned ih hrun

/-- The language of a built metamodel is drawn from it. -/
theorem drawn_ofMetamodel (hm : m.Built) {key version : String}
    (h : ofMetamodel key version m = .ok l) : l.Drawn := by
  have hdrawn := Drawn.enroll (.new key version) hm (m.types.map NodeType.name)
  unfold ofMetamodel at h
  split at h
  case h_1 a k hrun =>
    rw [hrun] at hdrawn
    exact Except.ok.inj h ▸ hdrawn
  case h_2 => cases h

/-! ### What matches a pointer -/

namespace Orderly

theorem mem_concepts_iff (hl : l.Orderly) {c : Concept} :
    c ∈ l.concepts ↔ l.concept? c.type = some c :=
  ⟨find?_of_nodup_key Concept.type hl.nodup_types, fun h => (concept?_eq_some h).1⟩

/-- Keys determine types, so no two concepts have the same key. -/
theorem nodup_keys (hl : l.Orderly) : (l.concepts.map Concept.key).Nodup := by
  have hkeys : l.concepts.map Concept.key = l.types.map fun type => s!"{l.key}-{type}" := by
    rw [types, List.map_map]
    exact List.map_congr_left hl.keyed.concept_key
  rw [hkeys]
  refine hl.nodup_types.map fun type other h => ?_
  change toString type = toString other
  simpa using h

/-- The keys of properties are their names, so no two properties of a concept have the same
key. -/
theorem nodup_property_keys (hl : l.Orderly) {c : Concept} (hc : c ∈ l.concepts) :
    (c.properties.entries.map Prod.snd).Nodup := by
  rw [List.map_congr_left (hl.keyed.property_key c hc)]
  exact c.properties.nodup_keys

/-- **The concept that is found is all that matches.** -/
theorem conceptsAt_eq (hl : l.Orderly) (p : Pointer) :
    (l.conceptsAt p).map Concept.type = (Schema.toType? l p).toList := by
  show _ = (p.key.bind fun key => if l.owns p then l.typeOfKey? key else none).toList
  unfold conceptsAt
  by_cases howns : l.owns p = true
  · rw [if_pos howns, filter_key?_eq Concept.key hl.nodup_keys]
    cases p.key with
    | none => rfl
    | some key => simp [howns, typeOfKey?, Option.toList_map]
  · rw [if_neg howns]
    cases p.key with
    | none => rfl
    | some key => simp [howns]

/-- **The property that is found is all that matches.** -/
theorem featuresAt_eq (hl : l.Orderly) (type : String) (p : Pointer) :
    (l.featuresAt type p).map Prod.fst = (Schema.toProperty? l type p).toList := by
  show _ = (p.key.bind fun key => if l.owns p then l.propertyOfKey? type key else none).toList
  unfold featuresAt
  by_cases howns : l.owns p = true
  · rw [if_pos howns, filter_key_eq Concept.type hl.nodup_types]
    show ((l.concept? type).toList.flatMap _).map Prod.fst = _
    cases hc : l.concept? type with
    | none => cases p.key <;> simp [propertyOfKey?, hc]
    | some c =>
        have hfilter := filter_key?_eq Prod.snd
          (hl.nodup_property_keys (concept?_eq_some hc).1) p.key
        rw [Option.toList_some, List.flatMap_singleton, hfilter]
        cases p.key with
        | none => rfl
        | some key => simp [howns, propertyOfKey?, hc, Option.toList_map]
  · rw [if_neg howns]
    cases p.key with
    | none => rfl
    | some key => simp [howns]

end Orderly

/-! ### Other orders -/

namespace Reordered

/-- The concepts may come in any order. -/
theorem of_perm (hkey : l'.key = l.key) (hversion : l'.version = l.version)
    (h : l.concepts.Perm l'.concepts) : l.Reordered l' :=
  ⟨hkey, hversion, id, fun _ _ => ⟨rfl, rfl, .refl _⟩, by rwa [List.map_id]⟩

theorem pointer_eq (h : l.Reordered l') (key : String) : l'.pointer key = l.pointer key := by
  rw [pointer, pointer, h.key_eq, h.version_eq]

theorem owns_eq (h : l.Reordered l') (p : Pointer) : l'.owns p = l.owns p := by
  rw [owns, owns, h.key_eq, h.version_eq]

theorem perm_types (h : l.Reordered l') : l.types.Perm l'.types := by
  obtain ⟨shuffle, hshuffle, hperm⟩ := h.concepts_perm
  have htypes : l.types = (l.concepts.map shuffle).map Concept.type := by
    rw [types, List.map_map]
    exact List.map_congr_left fun c hc => (hshuffle c hc).type_eq.symm
  rw [htypes]
  exact hperm.map Concept.type

/-- What the concepts that pass a test contribute is the same in another order. -/
theorem perm_flatMap_filter {β : Type} (h : l.Reordered l') {p : Concept → Bool}
    {part : Concept → List β} (hp : ∀ c d : Concept, c.Reordered d → p d = p c)
    (hpart : ∀ c d : Concept, c.Reordered d → (part c).Perm (part d)) :
    ((l.concepts.filter p).flatMap part).Perm ((l'.concepts.filter p).flatMap part) := by
  obtain ⟨shuffle, hshuffle, hperm⟩ := h.concepts_perm
  have hfilter : (l.concepts.map shuffle).filter p = (l.concepts.filter p).map shuffle := by
    rw [List.filter_map]
    exact congrArg _ (List.filter_congr fun c hc => hp c (shuffle c) (hshuffle c hc))
  calc (l.concepts.filter p).flatMap part
    _ |>.Perm ((l.concepts.filter p).flatMap fun c => part (shuffle c)) :=
        List.Perm.flatMap_left _ fun c hc =>
          hpart c (shuffle c) (hshuffle c (List.mem_of_mem_filter hc))
    _ = ((l.concepts.map shuffle).filter p).flatMap part := by rw [hfilter, List.flatMap_map]
    _ |>.Perm ((l'.concepts.filter p).flatMap part) := (hperm.filter p).flatMap_right part

theorem perm_conceptsAt (h : l.Reordered l') (p : Pointer) :
    ((l.conceptsAt p).map Concept.type).Perm ((l'.conceptsAt p).map Concept.type) := by
  rw [conceptsAt, conceptsAt, h.owns_eq]
  split
  · rw [List.map_eq_flatMap, List.map_eq_flatMap]
    refine h.perm_flatMap_filter (fun c d hcd => ?_) fun c d hcd => ?_
    · rw [hcd.key_eq]
    · rw [hcd.type_eq]
  · exact .refl _

theorem perm_featuresAt (h : l.Reordered l') (type : String) (p : Pointer) :
    (l.featuresAt type p).Perm (l'.featuresAt type p) := by
  rw [featuresAt, featuresAt, h.owns_eq]
  split
  · refine h.perm_flatMap_filter (fun c d hcd => ?_) fun c d hcd => ?_
    · rw [hcd.type_eq]
    · exact hcd.properties_perm.filter _
  · exact .refl _

theorem orderly (h : l.Reordered l') (hl : l.Orderly) : l'.Orderly := by
  obtain ⟨shuffle, hshuffle, hperm⟩ := h.concepts_perm
  have hentry : ∀ d ∈ l'.concepts, ∃ c ∈ l.concepts, c.Reordered d := by
    intro d hd
    obtain ⟨c, hc, rfl⟩ := List.mem_map.mp (hperm.mem_iff.mpr hd)
    exact ⟨c, hc, hshuffle c hc⟩
  refine ⟨⟨fun d hd => ?_, fun d hd => ?_⟩, h.perm_types.nodup_iff.mp hl.nodup_types⟩
  · obtain ⟨c, hc, hcd⟩ := hentry d hd
    rw [hcd.key_eq, hcd.type_eq, h.key_eq, hl.keyed.concept_key c hc]
  · obtain ⟨c, hc, hcd⟩ := hentry d hd
    exact fun entry hmem => hl.keyed.property_key c hc entry (hcd.properties_perm.mem_iff.mpr hmem)

theorem isSome_concept?_eq (h : l.Reordered l') (type : String) :
    (l.concept? type).isSome = (l'.concept? type).isSome := by
  rw [Bool.eq_iff_iff, isSome_concept?_iff, isSome_concept?_iff, h.perm_types.mem_iff]

end Reordered

/-- The pointer of a type is made from the language and the type. -/
theorem Keyed.typePointer?_eq (hl : l.Keyed) (type : String) :
    l.typePointer? type =
      if (l.concept? type).isSome then some (l.pointer s!"{l.key}-{type}") else none := by
  rw [typePointer?]
  cases hc : l.concept? type with
  | none => rfl
  | some c =>
      obtain ⟨hmem, rfl⟩ := concept?_eq_some hc
      rw [Option.map_some, hl.concept_key c hmem]
      rfl

/-- A property has the pointer that leads to it. -/
theorem Keyed.featurePointer?_eq (hl : l.Keyed) (type property : String) :
    l.featurePointer? type property =
      (Schema.toProperty? l type (l.pointer property)).map l.pointer := by
  have hto : Schema.toProperty? l type (l.pointer property) = l.propertyOfKey? type property :=
    if_pos (l.owns_pointer property)
  rw [hto, featurePointer?, propertyOfKey?]
  cases hc : l.concept? type with
  | none => rfl
  | some c =>
      rw [Option.bind_some, Option.bind_some, hl.find?_entries (concept?_eq_some hc).1]

/-- **The order of the entries does not matter.** -/
theorem Orderly.agree (hl : l.Orderly) (h : l.Reordered l') : Schema.Agree l l' := by
  have hl' := h.orderly hl
  have hproperty : ∀ type p, Schema.toProperty? l type p = Schema.toProperty? l' type p := by
    intro type p
    apply eq_of_perm_toList
    rw [← hl.featuresAt_eq, ← hl'.featuresAt_eq]
    exact (h.perm_featuresAt type p).map Prod.fst
  refine ⟨fun type => ?_, fun type property => ?_, fun p => ?_, hproperty⟩
  · show l.typePointer? type = l'.typePointer? type
    rw [hl.keyed.typePointer?_eq, hl'.keyed.typePointer?_eq, h.isSome_concept?_eq, h.pointer_eq,
      h.key_eq]
  · show l.featurePointer? type property = l'.featurePointer? type property
    rw [hl.keyed.featurePointer?_eq, hl'.keyed.featurePointer?_eq, ← hproperty, h.pointer_eq,
      funext h.pointer_eq]
  · apply eq_of_perm_toList
    rw [← hl.conceptsAt_eq, ← hl'.conceptsAt_eq]
    exact h.perm_conceptsAt p

/-- Languages that own the same pointer have the same key and version. -/
theorem key_eq_of_both_own {k : Language} {p : Pointer} (hk : k.owns p = true)
    (hl : l.owns p = true) : (k.key, k.version) = (l.key, l.version) := by
  simp only [owns, Bool.and_eq_true, beq_iff_eq] at hk hl
  have hkey := Option.some.inj (hk.1.symm.trans hl.1)
  have hversion := Option.some.inj (hk.2.symm.trans hl.2)
  rw [hkey, hversion]

end Language

/-! ### Registries -/

namespace Registry

variable {r r' : Registry}

theorem Built.orderly (hr : r.Built) (hdrawn : ∀ l ∈ r.languages, l.Drawn) : r.Orderly :=
  ⟨fun l hl => (hdrawn l hl).orderly, hr.keyed.2⟩

namespace Orderly

/-- At most one language owns a pointer. -/
theorem filter_owns_eq (hr : r.Orderly) (p : Pointer) :
    (r.languages.filter fun l => l.owns p) = (r.languages.find? fun l => l.owns p).toList := by
  refine filter_eq_toList_find? ((List.pairwise_map.mp hr.nodup).imp ?_)
  intro k l hne hk
  rw [Bool.eq_false_iff]
  exact fun hl => hne (Language.key_eq_of_both_own hk hl)

/-- A pointer to a concept is followed in the language that owns it. -/
theorem toType?_eq (hr : r.Orderly) (p : Pointer) :
    Schema.toType? r p =
      (r.languages.find? fun l => l.owns p).bind fun l => Schema.toType? l p := by
  show (p.key.bind fun key => (r.languages.filter fun l => l.owns p).findSome? fun l =>
    l.typeOfKey? key) = _
  rw [hr.filter_owns_eq]
  cases hfind : r.languages.find? fun l => l.owns p with
  | none => cases p.key <;> rfl
  | some l =>
      have howns : l.owns p = true := by simpa using List.find?_some hfind
      show _ = p.key.bind fun key => if l.owns p then l.typeOfKey? key else none
      simp [howns]

/-- **The concept that is found is all that matches, in whichever language.** -/
theorem conceptsAt_eq (hr : r.Orderly) (p : Pointer) :
    (r.conceptsAt p).map Concept.type = (Schema.toType? r p).toList := by
  have hconcepts : r.conceptsAt p =
      (r.languages.filter fun l => l.owns p).flatMap fun l => l.conceptsAt p :=
    flatMap_eq_flatMap_filter fun l _ hl => by simp [Language.conceptsAt, hl]
  rw [hconcepts, hr.filter_owns_eq, hr.toType?_eq]
  cases hfind : r.languages.find? fun l => l.owns p with
  | none => rfl
  | some l =>
      have hl := (hr.languages l (List.mem_of_find?_eq_some hfind)).conceptsAt_eq p
      simpa using hl

/-- **The property that is found is all that matches, in the language of the type.** -/
theorem featuresAt_eq (hr : r.Orderly) (type : String) (p : Pointer) :
    (r.featuresAt type p).map Prod.fst = (Schema.toProperty? r type p).toList := by
  show _ = ((r.languageOf? type).bind fun l => Schema.toProperty? l type p).toList
  rw [featuresAt]
  cases hfind : r.languageOf? type with
  | none => rfl
  | some l =>
      have hl := (hr.languages l (languageOf?_eq_some hfind)).featuresAt_eq type p
      simpa using hl

end Orderly

namespace Reordered

theorem orderly (h : r.Reordered r') (hr : r.Orderly) : r'.Orderly := by
  have hnames : List.Forall₂ Eq (r.languages.map fun l => (l.key, l.version))
      (r'.languages.map fun l => (l.key, l.version)) :=
    List.rel_map (fun l l' hl => by rw [hl.key_eq, hl.version_eq]) h
  rw [List.forall₂_eq_eq_eq] at hnames
  refine ⟨fun l' hl' => ?_, hnames ▸ hr.nodup⟩
  obtain ⟨l, hl, hreordered⟩ := exists_of_mem_right h hl'
  exact hreordered.orderly (hr.languages l hl)

/-- What is asked of the language that is found does not depend on the order of the
entries. -/
theorem bind_find?_eq (h : r.Reordered r') (hr : r.Orderly) {β : Type} {p : Language → Bool}
    {ask : Language → Option β} (hp : ∀ l l' : Language, l.Reordered l' → p l = p l')
    (hask : ∀ l l' : Language, Schema.Agree l l' → ask l = ask l') :
    (r.languages.find? p).bind ask = (r'.languages.find? p).bind ask := by
  have hrel := rel_find? h hp
  generalize hfind : r.languages.find? p = found at hrel ⊢
  generalize r'.languages.find? p = found' at hrel ⊢
  cases hrel with
  | none => rfl
  | some hreordered =>
      have hl := hr.languages _ (List.mem_of_find?_eq_some hfind)
      exact hask _ _ (hl.agree hreordered)

end Reordered

/-- **The order of the entries does not matter.** -/
theorem Orderly.agree (hr : r.Orderly) (h : r.Reordered r') : Schema.Agree r r' := by
  have hr' := h.orderly hr
  have hknows : ∀ (type : String) (l l' : Language), l.Reordered l' →
      (l.concept? type).isSome = (l'.concept? type).isSome :=
    fun type l l' hl => hl.isSome_concept?_eq type
  refine ⟨fun type => ?_, fun type property => ?_, fun p => ?_, fun type p => ?_⟩
  · exact h.bind_find?_eq hr (hknows type) fun l l' hl => hl.ofType?_eq type
  · exact h.bind_find?_eq hr (hknows type) fun l l' hl => hl.ofProperty?_eq type property
  · rw [hr.toType?_eq, hr'.toType?_eq]
    exact h.bind_find?_eq hr (fun l l' hl => (hl.owns_eq p).symm) fun l l' hl => hl.toType?_eq p
  · exact h.bind_find?_eq hr (hknows type) fun l l' hl => hl.toProperty?_eq type p

end Registry

namespace Schema

/-- **Look-ups invert each other and do not depend on the order of entries.**  In every
language drawn from built metamodels, and in every registry of such languages, what has a
pointer has a complete one, which leads back to it.  The answer to the search for a
pointer is the only entry that matches it, and the same entries in another order give the
same answers. -/
theorem lookups_determinate :
    (∀ l : Language, l.Drawn → Faithful l ∧
      (∀ p, (l.conceptsAt p).map Concept.type = (toType? l p).toList) ∧
      (∀ type p, (l.featuresAt type p).map Prod.fst = (toProperty? l type p).toList) ∧
      ∀ l', l.Reordered l' → Agree l l') ∧
    ∀ r : Registry, r.Built → (∀ l ∈ r.languages, l.Drawn) → Faithful r ∧
      (∀ p, (r.conceptsAt p).map Concept.type = (toType? r p).toList) ∧
      (∀ type p, (r.featuresAt type p).map Prod.fst = (toProperty? r type p).toList) ∧
      ∀ r', r.Reordered r' → Agree r r' := by
  constructor
  · intro l hl
    have horderly := hl.orderly
    exact ⟨hl.built.faithful, horderly.conceptsAt_eq, horderly.featuresAt_eq,
      fun l' => horderly.agree⟩
  · intro r hr hdrawn
    have horderly := hr.orderly hdrawn
    exact ⟨hr.faithful, horderly.conceptsAt_eq, horderly.featuresAt_eq,
      fun r' => horderly.agree⟩

/-- A type `c`, and a type `b-c` with the properties of `c`. -/
def dashedModel : Metamodel :=
  Metamodel.grow
    [.type { name := "c", properties :=
       [{ name := "size", kind := .value, dataType := some .int },
        { name := "rest", kind := .multiple }] },
     .type { name := "b-c", supertypes := ["c"] }]
    { name := "dashed" }

theorem dashedModel_built : dashedModel.Built := (Metamodel.Built.empty "dashed").grow _

def dashedLanguage (key version : String) : Language :=
  ((Language.ofMetamodel key version dashedModel).toOption).getD { key, version }

theorem dashedLanguage_drawn (key version : String) : (dashedLanguage key version).Drawn := by
  obtain ⟨l, hl, -⟩ := Language.exists_ofMetamodel dashedModel_built key version
  rw [dashedLanguage, hl]
  exact Language.drawn_ofMetamodel dashedModel_built hl

/-- Two languages that make the key `a-b-c` from different types, and a second version
of one of them. -/
def dashedRegistry : Registry :=
  ⟨[dashedLanguage "a-b" "1", dashedLanguage "a" "1", dashedLanguage "a" "2"]⟩

theorem dashedRegistry_built : dashedRegistry.Built := by
  have hfirst : Registry.Built ⟨[dashedLanguage "a-b" "1"]⟩ :=
    .register .empty (dashedLanguage_drawn "a-b" "1").built rfl
  have hsecond : Registry.Built ⟨[dashedLanguage "a-b" "1", dashedLanguage "a" "1"]⟩ :=
    .register hfirst (dashedLanguage_drawn "a" "1").built (by decide +kernel)
  exact .register hsecond (dashedLanguage_drawn "a" "2").built (by decide +kernel)

theorem nodup_keys_reverse (d : Dictionary String String) :
    (d.entries.reverse.map Prod.fst).Nodup := by
  rw [List.map_reverse, List.nodup_reverse]
  exact d.nodup_keys

def turnedConcept (c : Concept) : Concept :=
  { c with properties := ⟨c.properties.entries.reverse, nodup_keys_reverse c.properties⟩ }

/-- The entries of a language the other way round. -/
def turned (l : Language) : Language :=
  { l with concepts := (l.concepts.map turnedConcept).reverse }

theorem reordered_turned (l : Language) : l.Reordered (turned l) :=
  ⟨rfl, rfl, turnedConcept, fun _ _ => ⟨rfl, rfl, (List.reverse_perm _).symm⟩,
    (List.reverse_perm _).symm⟩

/-- The key `a-b-c` leads to different types in different languages, in either order of
the entries. -/
theorem lookups_determinate_dashed :
    (dashedRegistry.languages.map fun l => l.typePointer? "c") =
      [some ⟨some "a-b", some "1", some "a-b-c"⟩, some ⟨some "a", some "1", some "a-c"⟩,
        some ⟨some "a", some "2", some "a-c"⟩] ∧
    (toType? dashedRegistry ⟨some "a-b", some "1", some "a-b-c"⟩).toList = ["c"] ∧
    (toType? dashedRegistry ⟨some "a", some "2", some "a-b-c"⟩).toList = ["b-c"] ∧
    (toProperty? dashedRegistry "b-c" ⟨some "a-b", some "1", some "rest"⟩).toList = ["rest"] ∧
    Faithful dashedRegistry ∧ Agree dashedRegistry ⟨dashedRegistry.languages.map turned⟩ ∧
    Agree (dashedLanguage "a" "2") (turned (dashedLanguage "a" "2")) := by
  have hdrawn : ∀ l ∈ dashedRegistry.languages, l.Drawn := by
    simp [dashedRegistry, dashedLanguage_drawn]
  have hlanguage := lookups_determinate.1 _ (dashedLanguage_drawn "a" "2")
  obtain ⟨hfaithful, hconcepts, hfeatures, hagree⟩ :=
    lookups_determinate.2 dashedRegistry dashedRegistry_built hdrawn
  refine ⟨by decide +kernel, ?_, ?_, ?_, hfaithful, hagree _ ?_, hlanguage.2.2.2 _ ?_⟩
  · rw [← hconcepts]
    decide +kernel
  · rw [← hconcepts]
    decide +kernel
  · rw [← hfeatures]
    decide +kernel
  · exact List.forall₂_map_right_iff.mpr (List.forall₂_same.mpr fun l _ => reordered_turned l)
  · exact reordered_turned _

end Schema

end TypedForest
