import TypedForest.Proofs.Schema.Faithful

/-!
# Languages that share types

The languages of a registry may have types in common, as the versions of one language
do.  The two ways back from pointers then differ.  A pointer to a concept names its language
and version, and it is followed there.  A pointer to a property is followed in the first
language that knows the type, and only there; if that is not the language the pointer
comes from, it leads nowhere.

So a registry reads a document back feature by feature if the document is written against
the first language that knows each of its types, as the registry itself would write it.

## Main Results

* `Registry.languageOf?_append`: which language is the first to know a type.
* `Registry.lookups_of_registered`: both ways back, for the pointers of any language of the
  registry.
* `Registry.second_version_unread`: the second version of a language cannot be read.
-/

namespace TypedForest.Registry

variable {r : Registry} {before after : List Language} {l : Language} {type : String}

/-- The first language that knows a type is one of those before, or the one that knows it. -/
theorem languageOf?_append (hl : r.languages = before ++ l :: after)
    (htype : (l.concept? type).isSome) :
    r.languageOf? type =
      some ((before.find? fun k => (k.concept? type).isSome).getD l) := by
  have hself : (l :: after).find? (fun k => (k.concept? type).isSome) = some l := by
    simp [htype]
  rw [languageOf?, hl, List.find?_append, hself]
  cases before.find? (fun k => (k.concept? type).isSome) <;> rfl

/-- A language of a built registry does not own the pointers of a later one. -/
theorem Built.owns_eq_false (hr : r.Built) (hl : r.languages = before ++ l :: after)
    {k : Language} (hk : k ∈ before) (key : String) : k.owns (l.pointer key) = false := by
  rw [Bool.eq_false_iff]
  intro howns
  have hnodup := hr.keyed.2
  rw [hl, List.map_append, List.map_cons] at hnodup
  refine not_mem_of_nodup_append hnodup ?_
  rw [← Language.key_eq_of_owns howns]
  exact List.mem_map_of_mem hk

/-- **What a registry makes of the pointers of one of its languages.**  It leads the
pointer of a concept back to its type.  It leads the pointer of a property back to the
property if no language registered before has a concept for the type, and nowhere if there is
such a language. -/
theorem lookups_of_registered (hr : r.Built) (hl : r.languages = before ++ l :: after)
    (htype : (l.concept? type).isSome) :
    (∃ pointer, l.typePointer? type = some pointer ∧ Schema.toType? r pointer = some type) ∧
    ∀ property pointer, l.featurePointer? type property = some pointer →
      Schema.toProperty? r type pointer =
        if before.any fun k => (k.concept? type).isSome then none else some property := by
  have hmem : l ∈ r.languages := by
    rw [hl]
    simp
  constructor
  · obtain ⟨c, hc⟩ := Option.isSome_iff_exists.mp htype
    have hpointer : l.typePointer? type = some (l.pointer c.key) := by
      rw [Language.typePointer?, hc]
      rfl
    exact ⟨_, hpointer, (hr.toType?_typePointer hmem hpointer).2⟩
  · intro property pointer hpointer
    obtain ⟨rfl, hkey⟩ := Language.featurePointer?_eq_some (hr.keyed.1 l hmem) hpointer
    show (r.languageOf? type).bind (fun k => (some property).bind fun key =>
      if k.owns (l.pointer property) then k.propertyOfKey? type key else none) = _
    rw [languageOf?_append hl htype, Option.bind_some, Option.bind_some]
    cases hfirst : before.find? fun k => (k.concept? type).isSome with
    | none =>
        have hnone : (before.any fun k => (k.concept? type).isSome) = false := by
          rw [List.any_eq_false]
          exact List.find?_eq_none.mp hfirst
        rw [hnone]
        show (if l.owns (l.pointer property) then l.propertyOfKey? type property else none) = _
        rw [if_pos (l.owns_pointer property), hkey]
        rfl
    | some k =>
        have hk := List.mem_of_find?_eq_some hfirst
        have hsome : (before.any fun k => (k.concept? type).isSome) = true :=
          List.any_eq_true.mpr ⟨k, hk, by simpa using List.find?_some hfirst⟩
        rw [hsome]
        show (if k.owns (l.pointer property) then k.propertyOfKey? type property else none) = _
        rw [hr.owns_eq_false hl hk]
        rfl

/-- Things have a size. -/
def thing : TypeDeclaration where
  name := "Thing"
  properties := [{ name := "size", kind := .value, dataType := some .int }]

def thingModel : Metamodel := Metamodel.grow [.type thing] { name := "things" }

theorem thingModel_built : thingModel.Built := (Metamodel.Built.empty "things").grow _

/-- The language of things, in some version. -/
def thingLanguage (version : String) : Language :=
  ((Language.ofMetamodel "things" version thingModel).toOption).getD { key := "things", version }

theorem thingLanguage_built (version : String) : (thingLanguage version).Built := by
  obtain ⟨l, hl, hbuilt, -⟩ := Language.exists_ofMetamodel thingModel_built "things" version
  rw [thingLanguage, hl]
  exact hbuilt

/-- Two versions of one language. -/
def thingRegistry : Registry := ⟨[thingLanguage "1", thingLanguage "2"]⟩

theorem thingRegistry_built : thingRegistry.Built :=
  .register (.register .empty (thingLanguage_built "1") rfl) (thingLanguage_built "2")
    (by decide +kernel)

/-- Things of either version are recognized, but only the sizes of the first are. -/
theorem lookups_of_registered_things :
    (∃ pointer, (thingLanguage "2").typePointer? "Thing" = some pointer ∧
      Schema.toType? thingRegistry pointer = some "Thing") ∧
    Schema.toProperty? thingRegistry "Thing" ((thingLanguage "1").pointer "size") =
      some "size" ∧
    Schema.toProperty? thingRegistry "Thing" ((thingLanguage "2").pointer "size") = none := by
  have hknown : ∀ version ∈ ["1", "2"], ((thingLanguage version).concept? "Thing").isSome := by
    decide +kernel
  have hfirst := lookups_of_registered thingRegistry_built
    (show thingRegistry.languages = [] ++ thingLanguage "1" :: [thingLanguage "2"] from rfl)
    (hknown "1" (by decide))
  have hsecond := lookups_of_registered thingRegistry_built
    (show thingRegistry.languages = [thingLanguage "1"] ++ thingLanguage "2" :: [] from rfl)
    (hknown "2" (by decide))
  refine ⟨hsecond.1, ?_, ?_⟩
  · exact hfirst.2 "size" _ (by decide +kernel)
  · rw [hsecond.2 "size" _ (by decide +kernel)]
    decide +kernel

/-- The second version of a language is registered and gives a property a pointer, and
the registry does not lead this pointer back to the property. -/
theorem second_version_unread :
    thingRegistry.Built ∧ thingLanguage "2" ∈ thingRegistry.languages ∧
      ((thingLanguage "2").concept? "Thing").isSome ∧
      (thingLanguage "2").featurePointer? "Thing" "size" =
        some ((thingLanguage "2").pointer "size") ∧
      Schema.toProperty? thingRegistry "Thing" ((thingLanguage "2").pointer "size") ≠
        some "size" :=
  ⟨thingRegistry_built, by decide +kernel, by decide +kernel, by decide +kernel,
    by decide +kernel⟩

end TypedForest.Registry
