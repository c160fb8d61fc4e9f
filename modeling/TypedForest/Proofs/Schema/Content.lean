import TypedForest.Proofs.Schema.Determinate

/-!
# What a language consists of

A language may be put together in many calls, in any order and grouping, and with types given
more than once.  After each call the properties of all concepts are determined anew, so a
property may get its key only when the type that declares it is added, much later than the
type that has it.  In the end none of this shows.  As long as the calls succeed, the
language depends on the set of the types alone.

## Main Results

* `Language.Settled.run`: what a list of calls leads to.
* `Language.Orderly.reordered`: languages with the same concepts differ in their order only.
* `Language.content_of_types`: the content of a language is determined by its types.
-/

namespace TypedForest.Language

variable {m : Metamodel} {l l' : Language} {key version : String} {calls : List (List String)}

/-! ### Lists of calls -/

/-- Several calls one after the other, until one fails. -/
def enrollAll (m : Metamodel) (calls : List (List String)) : EStateM Error Language Unit :=
  calls.forM (enroll m)

theorem enrollAll_cons_eq_ok {call : List String} :
    enrollAll m (call :: calls) l = .ok () l' ↔
      ∃ k, enroll m call l = .ok () k ∧ enrollAll m calls k = .ok () l' := by
  show (enroll m call >>= fun _ => enrollAll m calls) l = _ ↔ _
  cases hcall : enroll m call l with
  | ok a k => simp [bind_of_ok _ hcall]
  | error e k => simp [bind_of_error _ hcall]

/-- **What a list of calls leads to.** -/
theorem Settled.run {types : List String} (hl : Settled m types l)
    (h : enrollAll m calls l = .ok () l') :
    Settled m (types ++ calls.flatten) l' ∧ l'.key = l.key ∧ l'.version = l.version := by
  induction calls generalizing types l with
  | nil =>
      obtain rfl := (EStateM.Result.ok.inj h).2
      exact ⟨by simpa using hl, rfl, rfl⟩
  | cons call calls ih =>
      obtain ⟨k, hcall, hrest⟩ := enrollAll_cons_eq_ok.mp h
      obtain ⟨hk, hkey, hversion⟩ := hl.enroll hcall
      obtain ⟨hl', hkey', hversion'⟩ := ih hk hrest
      refine ⟨?_, hkey'.trans hkey, hversion'.trans hversion⟩
      rwa [List.append_assoc, ← List.flatten_cons] at hl'

/-- A list of calls succeeds exactly if all types are known. -/
theorem Settled.exists_run_iff {types : List String} (hl : Settled m types l) :
    (∃ l', enrollAll m calls l = .ok () l') ↔
      ∀ type ∈ calls.flatten, m.knows type = true := by
  induction calls generalizing types l with
  | nil => exact ⟨fun _ => by simp, fun _ => ⟨l, rfl⟩⟩
  | cons call calls ih =>
      simp only [enrollAll_cons_eq_ok, List.flatten_cons, List.forall_mem_append]
      rw [exists_comm, ← hl.exists_enroll_iff]
      constructor
      · rintro ⟨k, l', hcall, hrest⟩
        exact ⟨⟨k, hcall⟩, (ih (hl.enroll hcall).1).mp ⟨l', hrest⟩⟩
      · rintro ⟨⟨k, hcall⟩, hrest⟩
        obtain ⟨l', hl'⟩ := (ih (hl.enroll hcall).1).mpr hrest
        exact ⟨k, l', hcall, hl'⟩

theorem Drawn.run (hl : l.Drawn) (hm : m.Built) (h : enrollAll m calls l = .ok () l') :
    l'.Drawn := by
  induction calls generalizing l with
  | nil =>
      obtain rfl := (EStateM.Result.ok.inj h).2
      exact hl
  | cons call calls ih =>
      obtain ⟨k, hcall, hrest⟩ := enrollAll_cons_eq_ok.mp h
      have hk := hl.enroll hm call
      rw [hcall] at hk
      exact ih hk hrest

/-! ### The same content -/

/-- Languages with the same concepts differ in their order only. -/
theorem Orderly.reordered (hl : l.Orderly) (hl' : l'.Orderly) (hkey : l'.key = l.key)
    (hversion : l'.version = l.version) (h : ∀ type, l.concept? type = l'.concept? type) :
    l.Reordered l' := by
  refine .of_perm hkey hversion ?_
  refine (List.perm_ext_iff_of_nodup hl.nodup_types.of_map hl'.nodup_types.of_map).mpr ?_
  intro c
  rw [hl.mem_concepts_iff, hl'.mem_concepts_iff, h]

/-- Only the set of the types matters. -/
theorem Settled.agree {types types' : List String} (hl : Settled m types l)
    (hl' : Settled m types' l') (horderly : l.Orderly) (horderly' : l'.Orderly)
    (hkey : l'.key = l.key) (hversion : l'.version = l.version)
    (hset : ∀ type, type ∈ types' ↔ type ∈ types) : Schema.Agree l l' := by
  refine horderly.agree (horderly.reordered horderly' hkey hversion fun type => ?_)
  rw [hl.concept?_eq, hl'.concept?_eq, hkey, features_congr hset]
  simp only [hset]

/-- Where types are concepts, a property has a key if the type that declares it is a
concept. -/
theorem exists_declaredBy_iff (hm : m.Built) {types : List String} {type property : String} :
    (∃ t p, m.type? type = some t ∧ p ∈ t.effective ∧ p.name = property ∧
        p.declaredBy ∈ types) ↔
      ∃ t p owner, m.type? type = some t ∧ p ∈ t.effective ∧ p.name = property ∧
        m.Declares owner p ∧ owner ∈ types := by
  constructor
  · rintro ⟨t, p, ht, hp, hname, hby⟩
    obtain ⟨hmem, -⟩ := hm.indexed.mem_of_type? ht
    obtain ⟨owner, -, hdeclares⟩ := (hm.layered.mem_effective t hmem p).mp hp
    rw [hm.layered.declaredBy_of_declares hdeclares] at hby
    exact ⟨t, p, owner, ht, hp, hname, hdeclares, hby⟩
  · rintro ⟨t, p, owner, ht, hp, hname, hdeclares, howner⟩
    rw [← hm.layered.declaredBy_of_declares hdeclares] at howner
    exact ⟨t, p, ht, hp, hname, howner⟩

/-- **The content of a language is determined by its types.**

* A list of calls succeeds exactly if all types that are given are known.
* Then the concepts of the language are these types, with keys made from the language and the
  type, and the properties that have a key are those effective properties that are
  declared by one of these types.  Calls that give the same types lead to the same answers.
* The language of a metamodel always exists, and all effective properties of all types have
  a key in it. -/
theorem content_of_types (hm : m.Built) (key version : String) :
    (∀ calls : List (List String),
      (∃ l, enrollAll m calls { key, version } = .ok () l) ↔
        ∀ type ∈ calls.flatten, m.knows type = true) ∧
    (∀ (calls : List (List String)) (l : Language),
      enrollAll m calls { key, version } = .ok () l →
      (∀ type, l.typePointer? type =
        if type ∈ calls.flatten then some ⟨some key, some version, some s!"{key}-{type}"⟩
        else none) ∧
      (∀ type property pointer, l.featurePointer? type property = some pointer ↔
        pointer = ⟨some key, some version, some property⟩ ∧ type ∈ calls.flatten ∧
          ∃ t p owner, m.type? type = some t ∧ p ∈ t.effective ∧ p.name = property ∧
            m.Declares owner p ∧ owner ∈ calls.flatten) ∧
      ∀ (calls' : List (List String)) (l' : Language),
        (∀ type, type ∈ calls'.flatten ↔ type ∈ calls.flatten) →
        enrollAll m calls' { key, version } = .ok () l' → Schema.Agree l l') ∧
    ∃ l, ofMetamodel key version m = .ok l ∧ ∀ type t, m.type? type = some t →
      ∀ p ∈ t.effective,
        l.featurePointer? type p.name = some ⟨some key, some version, some p.name⟩ := by
  have hnew := settled_new m key version
  have horderly : ∀ {calls l}, enrollAll m calls { key, version } = .ok () l → l.Orderly :=
    fun hrun => ((Drawn.new key version).run hm hrun).orderly
  refine ⟨fun calls => hnew.exists_run_iff, fun calls l hrun => ?_, ?_⟩
  · obtain ⟨hl, rfl, rfl⟩ := hnew.run hrun
    rw [List.nil_append] at hl
    refine ⟨hl.typePointer?_eq, fun type property pointer => ?_, fun calls' l' hset hrun' => ?_⟩
    · rw [hl.featurePointer?_eq_some, exists_declaredBy_iff hm]
      rfl
    · obtain ⟨hl', hkey, hversion⟩ := hnew.run hrun'
      rw [List.nil_append] at hl'
      exact hl.agree hl' (horderly hrun) (horderly hrun') hkey hversion hset
  · obtain ⟨l, hof, -, hl, rfl, rfl⟩ := settled_ofMetamodel hm key version
    exact ⟨l, hof, fun type t ht p hp => hl.featurePointer?_eq hm ht hp⟩

/-- The types of a diamond. -/
def diamondModel : Metamodel := Metamodel.grow Metamodel.diamondCalls { name := "diamond" }

theorem diamondModel_built : diamondModel.Built := (Metamodel.Built.empty "diamond").grow _

/-- The diamond without `Left`, in three calls. -/
def lopsidedCalls : List (List String) := [["Both"], ["Right", "Both"], ["Named"]]

/-- In which calls the types are given makes no difference.  Without `Left`, the mode that it
declares has no key in `Both`. -/
theorem content_of_types_diamond :
    ∃ l l', enrollAll diamondModel lopsidedCalls { key := "d", version := "1" } = .ok () l ∧
      enrollAll diamondModel [[], ["Named", "Right", "Named", "Both"]]
        { key := "d", version := "1" } = .ok () l' ∧ Schema.Agree l l' ∧
      l.typePointer? "Both" = some ⟨some "d", some "1", some "d-Both"⟩ ∧
      l.typePointer? "Left" = none ∧ l.featurePointer? "Both" "mode" = none ∧
      ∃ t p owner, diamondModel.type? "Both" = some t ∧ p ∈ t.effective ∧ p.name = "name" ∧
        diamondModel.Declares owner p ∧ owner ∈ lopsidedCalls.flatten := by
  obtain ⟨hsucceeds, hcontent, -⟩ := content_of_types diamondModel_built "d" "1"
  obtain ⟨l, hl⟩ := (hsucceeds lopsidedCalls).mpr (by decide +kernel)
  obtain ⟨l', hl'⟩ := (hsucceeds [[], ["Named", "Right", "Named", "Both"]]).mpr (by decide +kernel)
  obtain ⟨htypes, hfeatures, hagree⟩ := hcontent _ l hl
  have houtcome :
      l = outcome (enrollAll diamondModel lopsidedCalls { key := "d", version := "1" }) := by
    rw [hl]
    rfl
  have hname : l.featurePointer? "Both" "name" = some ⟨some "d", some "1", some "name"⟩ := by
    rw [houtcome]
    decide +kernel
  refine ⟨l, l', hl, hl', hagree _ l' (fun type => ?_) hl', ?_, ?_, ?_, ?_⟩
  · simp only [lopsidedCalls, List.flatten_cons, List.flatten_nil, List.nil_append,
      List.append_nil, List.mem_append, List.mem_cons, List.not_mem_nil, or_false]
    tauto
  · rw [htypes]
    rfl
  · rw [htypes]
    rfl
  · rw [houtcome]
    decide +kernel
  · exact ((hfeatures "Both" "name" _).mp hname).2.2

end TypedForest.Language
