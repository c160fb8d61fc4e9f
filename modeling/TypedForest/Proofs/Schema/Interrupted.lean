import Mathlib.Data.List.TakeWhile
import TypedForest.Proofs.Schema.Determinate

/-!
# Concepts that were added half way

Adding concepts stops at the first type that the metamodel does not know, and what was done
before stays.  There are two ways to leave a trace.  If it is one of the names given that is
not known, the names before it have become concepts, and they have no properties.  If it is
a concept of the language, taken from another metamodel, all the names have become concepts,
and the properties of some concepts are those that this metamodel determines.

So a language is seldom left as it was: only if the names that were reached were concepts
before, and the properties that were determined were those before.

## Main Definitions

* `Language.Current`: the properties of a concept are those that a metamodel determines.

## Main Results

* `Language.reordered_refresh`: determining what is current changes nothing that is seen.
* `Language.interrupted_unseen_iff`: when adding concepts in vain changes nothing that is
  seen.
* `Language.entered_in_vain`: a concept that is left behind without its properties.
-/

namespace TypedForest

namespace Schema.Agree

variable {σ : Type} [Schema σ] {r s t : σ}

theorem refl (s : σ) : Agree s s := ⟨fun _ => rfl, fun _ _ => rfl, fun _ => rfl, fun _ _ => rfl⟩

theorem symm (h : Agree r s) : Agree s r :=
  ⟨fun type => (h.ofType?_eq type).symm, fun type property => (h.ofProperty?_eq type property).symm,
    fun pointer => (h.toType?_eq pointer).symm,
    fun type pointer => (h.toProperty?_eq type pointer).symm⟩

theorem trans (h : Agree r s) (h' : Agree s t) : Agree r t :=
  ⟨fun type => (h.ofType?_eq type).trans (h'.ofType?_eq type),
    fun type property => (h.ofProperty?_eq type property).trans (h'.ofProperty?_eq type property),
    fun pointer => (h.toType?_eq pointer).trans (h'.toType?_eq pointer),
    fun type pointer => (h.toProperty?_eq type pointer).trans (h'.toProperty?_eq type pointer)⟩

end Schema.Agree

namespace Language

variable {m : Metamodel} {k k' l l' : Language} {names registered : List String}

/-- The properties of the concept and their keys are those that the metamodel determines. -/
def Current (m : Metamodel) (l : Language) (c : Concept) : Prop :=
  ∀ property, c.properties.get? property = (features m l.types c.type).get? property

/-! ### What is seen of a language -/

theorem isSome_typePointer?_iff {type : String} :
    (l.typePointer? type).isSome ↔ type ∈ l.types := by
  rw [typePointer?, Option.isSome_map, isSome_concept?_iff]

/-- Languages that give the same answers have the same types. -/
theorem mem_types_iff_of_agree (h : Schema.Agree l l') {type : String} :
    type ∈ l.types ↔ type ∈ l'.types := by
  have hpointer : l.typePointer? type = l'.typePointer? type := h.ofType?_eq type
  rw [← isSome_typePointer?_iff, hpointer, isSome_typePointer?_iff]

/-- Languages that give the same answers have the same properties with the same keys. -/
theorem get?_properties_of_agree (h : Schema.Agree l l') {type : String} {c c' : Concept}
    (hc : l.concept? type = some c) (hc' : l'.concept? type = some c') (property : String) :
    c.properties.get? property = c'.properties.get? property := by
  have hpointer : l.featurePointer? type property = l'.featurePointer? type property :=
    h.ofProperty?_eq type property
  rw [featurePointer?, featurePointer?, hc, hc', Option.bind_some, Option.bind_some] at hpointer
  have hkey := congrArg (Option.bind · Pointer.key) hpointer
  simpa [Option.bind_map, pointer, Function.comp_def] using hkey

/-! ### Steps that change nothing -/

/-- Types that are concepts are not entered again. -/
theorem foldl_enter_of_mem (h : ∀ type ∈ names, type ∈ l.types) : names.foldl enter l = l := by
  induction names with
  | nil => rfl
  | cons name names ih =>
      rw [List.forall_mem_cons] at h
      have hstep : l.enter name = l := if_pos (isSome_concept? h.1)
      rw [List.foldl_cons, hstep, ih h.2]

/-- Determining properties leaves the types alone. -/
theorem types_foldl_refresh (hnames : ∀ type ∈ names, m.knows type = true) (l : Language) :
    (names.foldl (refresh m registered) l).types = l.types := by
  rw [foldl_refresh hnames, types, List.map_map]
  refine List.map_congr_left fun c _ => ?_
  rw [Function.comp_apply]
  split <;> rfl

/-- What was determined is current. -/
theorem Orderly.concept?_foldl_refresh (hk : k.Orderly)
    (hnames : ∀ type ∈ names, m.knows type = true) {c : Concept} (hc : c ∈ k.concepts)
    (hname : c.type ∈ names) :
    (names.foldl (refresh m registered) k).concept? c.type =
      some { c with properties := features m registered c.type } := by
  have hnodup : (names.foldl (refresh m registered) k).types.Nodup := by
    rw [types_foldl_refresh hnames]
    exact hk.nodup_types
  have hmem : { c with properties := features m registered c.type } ∈
      (names.foldl (refresh m registered) k).concepts := by
    rw [foldl_refresh hnames]
    exact List.mem_map.mpr ⟨c, hc, if_pos hname⟩
  exact find?_of_nodup_key Concept.type hnodup hmem

/-- Determining properties that are current changes their order at most. -/
theorem reordered_refresh (hnames : ∀ type ∈ names, m.knows type = true)
    (hcurrent : ∀ c ∈ k.concepts, c.type ∈ names → k.Current m c) :
    k.Reordered (names.foldl (refresh m k.types) k) := by
  rw [foldl_refresh hnames]
  refine ⟨rfl, rfl, _, fun c hc => ?_, .refl _⟩
  split
  case isTrue hname =>
    exact ⟨rfl, rfl, Dictionary.perm_entries_iff.mpr (hcurrent c hc hname)⟩
  case isFalse => exact ⟨rfl, rfl, .refl _⟩

/-! ### Failures -/

/-- What is reached before the first type that is not known. -/
theorem takeWhile_knows_eq {before after : List String} {type : String}
    (hbefore : ∀ other ∈ before, m.knows other = true) (htype : m.knows type = false) :
    (before ++ type :: after).takeWhile m.knows = before := by
  rw [List.takeWhile_append_of_pos hbefore, List.takeWhile_cons_of_neg (by simp [htype]),
    List.append_nil]

/-- A failure at a name. -/
theorem unseen_name_iff {before : List String} :
    Schema.Agree k (before.foldl enter k) ↔ ∀ type ∈ before, type ∈ k.types := by
  constructor
  · intro h type htype
    exact (mem_types_iff_of_agree h).mpr (mem_types_foldl_enter.mpr (.inr htype))
  · intro h
    rw [foldl_enter_of_mem h]
    exact .refl k

/-- A failure at a concept, the names having been concepts before. -/
theorem Orderly.unseen_concept_iff (hk : k.Orderly) {before after : List String}
    {type : String} (hsplit : k.types = before ++ type :: after)
    (hbefore : ∀ other ∈ before, m.knows other = true) (htype : m.knows type = false) :
    Schema.Agree k (before.foldl (refresh m k.types) k) ↔
      ∀ c ∈ k.concepts.takeWhile fun c => m.knows c.type, k.Current m c := by
  have hreached : (k.concepts.takeWhile fun c => m.knows c.type).map Concept.type = before := by
    rw [← takeWhile_knows_eq hbefore htype, ← hsplit, types, List.takeWhile_map]
    rfl
  constructor
  · intro h c hc
    have hmem := (List.takeWhile_sublist _).subset hc
    have hname : c.type ∈ before := hreached ▸ List.mem_map_of_mem hc
    have hold := hk.mem_concepts_iff.mp hmem
    have hnew : (before.foldl (refresh m k.types) k).concept? c.type = _ :=
      hk.concept?_foldl_refresh hbefore hmem hname
    exact get?_properties_of_agree h hold hnew
  · intro h
    refine hk.agree (reordered_refresh hbefore fun c hc hname => h c ?_)
    rw [← hreached] at hname
    obtain ⟨d, hd, hsame⟩ := List.mem_map.mp hname
    have hmem := (List.takeWhile_sublist _).subset hd
    obtain rfl := List.inj_on_of_nodup_map hk.nodup_types hmem hc hsame
    exact hd

/-- **When adding concepts in vain changes nothing that is seen.**  Let a language be drawn
from built metamodels, with its entries in whatever order.  If adding concepts fails, all
look-ups answer as before exactly if the names before the first one that is not known were
concepts already, and, in case all of them are known, the concepts before the first one that
is not known had the properties already that the metamodel determines. -/
theorem interrupted_unseen_iff {e : Error} (hl : l.Drawn) (horder : l.Reordered k)
    (h : enroll m names k = .error e k') :
    Schema.Agree l k' ↔
      (∀ type ∈ names.takeWhile m.knows, type ∈ l.types) ∧
      ((∀ type ∈ names, m.knows type = true) →
        ∀ c ∈ k.concepts.takeWhile fun c => m.knows c.type, k.Current m c) := by
  have hk : k.Orderly := horder.orderly hl.orderly
  have hseen : Schema.Agree l k' ↔ Schema.Agree k k' :=
    ⟨(hl.orderly.agree horder).symm.trans, (hl.orderly.agree horder).trans⟩
  simp only [hseen, horder.perm_types.mem_iff]
  rcases m.all_known_or_first_unknown names with hnames | ⟨before, type, after, rfl, hbefore, htype⟩
  · rw [List.takeWhile_eq_self_iff.mpr hnames, imp_iff_right hnames]
    rcases m.all_known_or_first_unknown (names.foldl enter k).types with
      hall | ⟨before, type, after, hsplit, hbefore, htype⟩
    · have hold : ∀ type ∈ k.types, m.knows type = true :=
        fun type htype => hall type (mem_types_foldl_enter.mpr (.inl htype))
      rw [enroll_of_known hnames hold] at h
      cases h
    · rw [enroll_of_unknown_concept hnames hsplit hbefore htype] at h
      obtain ⟨-, rfl⟩ := EStateM.Result.error.inj h
      by_cases hmem : ∀ type ∈ names, type ∈ k.types
      · rw [and_iff_right hmem]
        rw [foldl_enter_of_mem hmem] at hsplit ⊢
        exact hk.unseen_concept_iff hsplit hbefore htype
      · -- A new name is seen, whatever happens to the properties.
        refine iff_of_false (fun hagree => hmem fun type htype => ?_) fun hboth => hmem hboth.1
        rw [mem_types_iff_of_agree hagree, types_foldl_refresh hbefore]
        exact mem_types_foldl_enter.mpr (.inr htype)
  · rw [enroll_of_unknown_name hbefore htype] at h
    obtain ⟨-, rfl⟩ := EStateM.Result.error.inj h
    have hnot : ¬ ∀ other ∈ before ++ type :: after, m.knows other = true := by
      intro hall
      have hknows := hall type (by simp)
      rw [htype] at hknows
      cases hknows
    rw [takeWhile_knows_eq hbefore htype, unseen_name_iff,
      and_iff_left fun hall => absurd hall hnot]

/-- Things have a size, and like all that is named they have a name. -/
def shelfModel : Metamodel :=
  Metamodel.grow
    [.type { name := "Named", isAbstract := true, properties :=
       [{ name := "name", kind := .value, dataType := some .string }] },
     .type { name := "Thing", supertypes := ["Named"], properties :=
       [{ name := "size", kind := .value, dataType := some .int }] }]
    { name := "shelf" }

theorem shelfModel_built : shelfModel.Built := (Metamodel.Built.empty "shelf").grow _

/-- Another metamodel, in which things have a weight. -/
def scaleModel : Metamodel :=
  Metamodel.grow [.type { name := "Thing", properties := [{ name := "weight", kind := .value }] }]
    { name := "scale" }

/-- The language of things and what is named. -/
def shelfLanguage : Language :=
  outcome (enroll shelfModel ["Thing", "Named"] { key := "shelf", version := "1" })

theorem shelfLanguage_drawn : shelfLanguage.Drawn :=
  .enroll (.new "shelf" "1") shelfModel_built ["Thing", "Named"]

/-- Entering in vain what is there already changes nothing.  A metamodel that knows things
only takes their properties away before it fails. -/
theorem interrupted_unseen_iff_shelf :
    (∃ k', enroll shelfModel ["Thing", "Missing", "Named"] shelfLanguage =
      .error (.unknownType "Missing") k' ∧ Schema.Agree shelfLanguage k') ∧
    ∃ k', enroll scaleModel ["Thing"] shelfLanguage = .error (.unknownType "Named") k' ∧
      ¬ Schema.Agree shelfLanguage k' := by
  have hsame : shelfLanguage.Reordered shelfLanguage := .of_perm rfl rfl (.refl _)
  have hshelf : enroll shelfModel (["Thing"] ++ "Missing" :: ["Named"]) shelfLanguage = _ :=
    enroll_of_unknown_name (by decide +kernel) (by decide +kernel) shelfLanguage
  have hscale : enroll scaleModel ["Thing"] shelfLanguage = _ :=
    enroll_of_unknown_concept (by decide +kernel)
      (show (["Thing"].foldl enter shelfLanguage).types = ["Thing"] ++ "Named" :: [] by
        decide +kernel) (by decide +kernel) (by decide +kernel)
  refine ⟨⟨_, hshelf, ?_⟩, _, hscale, fun hagree => ?_⟩
  · refine (interrupted_unseen_iff shelfLanguage_drawn hsame hshelf).mpr
      ⟨by decide +kernel, fun hall => ?_⟩
    exact absurd (hall "Missing" (by decide)) (by decide +kernel)
  · obtain ⟨-, hcurrent⟩ :=
      (interrupted_unseen_iff shelfLanguage_drawn hsame hscale).mp hagree
    have hthing : ⟨"Thing", "shelf-Thing", .ofList [("name", "name"), ("size", "size")]⟩ ∈
        shelfLanguage.concepts.takeWhile fun c => scaleModel.knows c.type := by decide +kernel
    have hsize := hcurrent (by decide +kernel) _ hthing "size"
    exact absurd hsize (by decide +kernel)

/-- Adding `Thing` and a type that is not known fails, and `Thing` is a concept all the same.
Its own property has no key, though the type that declares it is a concept. -/
theorem entered_in_vain :
    let l : Language := { key := "shelf", version := "1" }
    l.Drawn ∧ shelfModel.Built ∧
    ∃ l', enroll shelfModel ["Thing", "Missing"] l = .error (.unknownType "Missing") l' ∧
      Schema.ofType? l "Thing" = none ∧
      Schema.ofType? l' "Thing" = some ⟨some "shelf", some "1", some "shelf-Thing"⟩ ∧
      Schema.ofProperty? l' "Thing" "size" = none ∧ ¬ Schema.Agree l l' := by
  intro l
  have hrun : enroll shelfModel (["Thing"] ++ "Missing" :: []) l = _ :=
    enroll_of_unknown_name (by decide +kernel) (by decide +kernel) l
  have hleft : Schema.ofType? (["Thing"].foldl enter l) "Thing" =
      some ⟨some "shelf", some "1", some "shelf-Thing"⟩ := by decide +kernel
  refine ⟨.new "shelf" "1", shelfModel_built, _, hrun, rfl, hleft, by decide +kernel, ?_⟩
  intro hagree
  have hnone := hagree.ofType?_eq "Thing"
  rw [hleft] at hnone
  cases hnone

end Language

end TypedForest
