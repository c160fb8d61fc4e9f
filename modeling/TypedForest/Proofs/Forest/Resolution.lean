import TypedForest.Forest.References
import TypedForest.Proofs.Document.Record
import TypedForest.Proofs.Metamodel.Lineage

/-!
# What an inspection of references looks at

An inspection goes down a tree with a counter and stops at the first reference that is not
in the expected state.  The references that it looks at can be listed beforehand: node by
node along the walk, and at each node in the order of the property table, those that the
selector means and that are there at all.  An inspection goes through this list.

The second side of the recursion is therefore a loop over a list (`tally`).  Loops over
lists that follow each other make one loop, so the recursion over the tree becomes the loop
over the walk, level by level (`checkBelow_eq_tally`).

## Main Definitions

* `Selector.Means`: the reference properties that a selector means.
* `Forest.findings`: the references that an inspection looks at, in order.
* `Forest.tally`: going through them.

## Main Results

* `Selector.picks_iff`: selectors pick what they mean.
* `Sound.checkBelow_eq_tally`: inspecting a tree is going through its findings.
* `Forest.resolution_exact`: the outcome of every inspection.
-/

namespace TypedForest

namespace Selector

/-- The selector means the property, on nodes of the given type: a reference, and one of
the given name that the owner declares or has on its own nodes, or one to a type that
leads up to the given one through supertypes. -/
def Means (s : Selector) (m : Metamodel) (type : String) (p : Property) : Prop :=
  p.kind = .reference ∧
    match s with
    | any => True
    | property owner name => p.name = name ∧ (p.declaredBy = owner ∨ type = owner)
    | target super =>
        ∃ sub, p.targetType = some sub ∧ Relation.ReflTransGen m.Extends sub super

/-- **Selectors pick what they mean.** -/
theorem picks_iff {m : Metamodel} (hm : m.Built) (s : Selector) (type : String) (p : Property) :
    s.picks m type p = true ↔ s.Means m type p := by
  unfold picks Means
  rw [Bool.and_eq_true, beq_iff_eq]
  refine and_congr_right fun _ => ?_
  cases s with
  | any => simp
  | property owner name => simp
  | target super =>
      cases p.targetType with
      | none => simp
      | some sub => simp [hm.layered.assignable_iff]

end Selector

/-- A reference that an inspection looks at, with the node and the property that hold it. -/
structure Finding where
  node : NodeId
  property : Property
  reference : NamedRef
deriving DecidableEq, Repr

namespace Forest

variable {f : Forest} {s : Selector} {expected : Bool} {x : NodeId}

/-- What an inspection looks at in a facet of a node. -/
def finding? (f : Forest) (s : Selector) (x : NodeId) (facet : Facet) : Option Finding :=
  if s.picks f.metamodel (f.typeOf x) facet.property then
    match facet.slot with
    | .reference (some r) => some ⟨x, facet.property, r⟩
    | _ => none
  else none

/-- What an inspection looks at, node by node along the walk and facet by facet. -/
def findings (f : Forest) (s : Selector) (root : NodeId) : List Finding :=
  (f.preorder root).flatMap fun x => (f.visible x).filterMap (f.finding? s x)

theorem finding?_eq_some_iff (hm : f.metamodel.Built) {facet : Facet} {i : Finding} :
    f.finding? s x facet = some i ↔
      s.Means f.metamodel (f.typeOf x) facet.property ∧
        facet.slot = .reference (some i.reference) ∧ i.node = x ∧
        i.property = facet.property := by
  obtain ⟨p, slot⟩ := facet
  obtain ⟨node, property, reference⟩ := i
  rw [finding?, ← Selector.picks_iff hm]
  split
  case isTrue hpicks =>
    rw [and_iff_right hpicks]
    cases slot with
    | reference r => cases r <;> simp [eq_comm, and_comm, and_left_comm]
    | _ => simp
  case isFalse hpicks => simp [hpicks]

/-! ### Going through a list of findings -/

/-- Count the findings of a list, starting from a given number, and stop at the first that
is not in the expected state. -/
def tally (f : Forest) (expected : Bool) : Nat → List Finding → Except Error Nat
  | count, [] => .ok count
  | count, i :: rest =>
      if i.reference.isResolved = expected then f.tally expected (count + 1) rest
      else .error (.resolution (f.pathText i.node) i.property.name i.reference.name expected)

@[simp] theorem tally_nil (count : Nat) : f.tally expected count [] = .ok count := rfl

theorem tally_cons (count : Nat) (i : Finding) (rest : List Finding) :
    f.tally expected count (i :: rest) =
      if i.reference.isResolved = expected then f.tally expected (count + 1) rest
      else .error (.resolution (f.pathText i.node) i.property.name i.reference.name expected) :=
  rfl

/-- Going through two lists, one after the other. -/
theorem tally_append (count : Nat) (l k : List Finding) :
    f.tally expected count (l ++ k) =
      (f.tally expected count l >>= fun count => f.tally expected count k) := by
  induction l generalizing count with
  | nil => rfl
  | cons i l ih =>
      rw [List.cons_append, tally_cons, tally_cons]
      split
      · exact ih (count + 1)
      · rfl

/-- All findings are as expected. -/
theorem tally_eq_ok {l : List Finding} (h : ∀ i ∈ l, i.reference.isResolved = expected)
    (count : Nat) : f.tally expected count l = .ok (count + l.length) := by
  induction l generalizing count with
  | nil => rfl
  | cons i l ih =>
      rw [List.forall_mem_cons] at h
      rw [tally_cons, if_pos h.1, ih h.2, List.length_cons, Nat.add_assoc, Nat.add_comm 1]

/-- The first finding that is not as expected is reported. -/
theorem tally_eq_error {before after : List Finding} {i : Finding}
    (h : ∀ j ∈ before, j.reference.isResolved = expected)
    (hi : i.reference.isResolved ≠ expected) (count : Nat) :
    f.tally expected count (before ++ i :: after) =
      .error (.resolution (f.pathText i.node) i.property.name i.reference.name expected) := by
  rw [tally_append, tally_eq_ok h]
  exact if_neg hi

/-! ### The recursion -/

/-- Inspecting the facets of a node. -/
theorem checkFacets_eq_tally (count : Nat) (facets : List Facet) :
    f.checkFacets s expected x (f.typeOf x) count facets =
      f.tally expected count (facets.filterMap (f.finding? s x)) := by
  induction facets generalizing count with
  | nil => rfl
  | cons facet facets ih =>
      obtain ⟨p, slot⟩ := facet
      rw [checkFacets, List.filterMap_cons, finding?]
      split
      case isTrue =>
        cases slot with
        | reference r =>
            cases r with
            | none => exact ih count
            | some r =>
                simp only [tally_cons, ih]
        | _ => exact ih count
      case isFalse => exact ih count

/-- Inspecting trees one after the other, given how each of them is inspected. -/
theorem foldlM_eq_tally {inspect : Nat → NodeId → Except Error Nat} {cs : List NodeId}
    {found : NodeId → List Finding}
    (h : ∀ c ∈ cs, ∀ count, inspect count c = f.tally expected count (found c)) (count : Nat) :
    cs.foldlM inspect count = f.tally expected count (cs.flatMap found) := by
  induction cs generalizing count with
  | nil => rfl
  | cons c cs ih =>
      rw [List.forall_mem_cons] at h
      rw [List.foldlM_cons, List.flatMap_cons, tally_append, h.1]
      simp only [ih h.2]

/-- The findings of a tree: those of its root, and then those of the trees below it. -/
theorem Sound.findings_eq (hf : f.Sound) (hx : (f.get? x).isSome) :
    f.findings s x =
      (f.visible x).filterMap (f.finding? s x) ++ (f.children x).flatMap (f.findings s) := by
  rw [findings, hf.preorder_eq hx, List.flatMap_cons, below, List.flatMap_assoc]
  rfl

/-- **Inspecting a tree is going through its findings.**  The induction is on the budget,
which is enough for the height of the tree. -/
theorem Sound.checkBelow_eq_tally (hf : f.Sound) {budget : Nat}
    (hbudget : f.size ≤ budget + f.depth x) (hx : (f.get? x).isSome) (count : Nat) :
    f.checkBelow s expected budget count x = f.tally expected count (f.findings s x) := by
  induction budget generalizing x count with
  | zero =>
      have hdepth := hf.wellFormed.depth_lt_size hx
      omega
  | succ budget ih =>
      obtain ⟨n, hn⟩ := Option.isSome_iff_exists.mp hx
      have hchildren : ∀ c ∈ f.children x, ∀ count,
          f.checkBelow s expected budget count c = f.tally expected count (f.findings s c) := by
        intro c hc count
        have hdepth := hf.wellFormed.depth_of_parent (hf.parent?_of_mem_children hc)
        exact ih (by omega) (hf.isSome_of_mem_children hc) count
      rw [checkBelow, node_eq_ok.mpr hn, hf.publicFacets_eq_visible hx, hf.findings_eq hx,
        tally_append]
      simp only [bind, Except.bind, ← typeOf_of_get? hn, checkFacets_eq_tally]
      cases f.tally expected count ((f.visible x).filterMap (f.finding? s x)) with
      | error e => rfl
      | ok count => exact foldlM_eq_tally hchildren count

theorem Sound.checkResolution_eq_tally (hf : f.Sound) {root : NodeId}
    (hroot : (f.get? root).isSome) (s : Selector) (expected : Bool) :
    f.checkResolution root s expected = f.tally expected 0 (f.findings s root) := by
  rw [checkResolution, hf.checkTree_eq hroot]
  exact hf.checkBelow_eq_tally (by omega) hroot 0

/-- **The outcome of every inspection.**  In a forest that edits lead to, an inspection of a
tree looks at the references along the walk that the selector means.  If all of them are in
the expected state, it passes and gives their number; otherwise it reports the first one
that is not, with the path of its node.  So inspections with either expectation both pass
exactly if there is nothing to look at. -/
theorem resolution_exact {m : Metamodel} (hm : m.Built) {f : Forest} (hf : Reachable m f)
    {root : NodeId} (hroot : (f.get? root).isSome) (s : Selector) :
    (∀ x facet i, f.finding? s x facet = some i ↔
      s.Means m (f.typeOf x) facet.property ∧ facet.slot = .reference (some i.reference) ∧
        i.node = x ∧ i.property = facet.property) ∧
    (∀ expected,
      ((∀ i ∈ f.findings s root, i.reference.isResolved = expected) →
        f.checkResolution root s expected = .ok (f.findings s root).length) ∧
      ∀ before i after, f.findings s root = before ++ i :: after →
        (∀ j ∈ before, j.reference.isResolved = expected) →
        i.reference.isResolved ≠ expected →
          f.checkResolution root s expected = .error
            (.resolution (f.pathText i.node) i.property.name i.reference.name expected)) ∧
    ((∃ k, f.checkResolution root s true = .ok k) ∧
        (∃ k, f.checkResolution root s false = .ok k) ↔ f.findings s root = []) := by
  have hsound := hf.sound
  have hbuilt : f.metamodel.Built := hf.metamodel_eq ▸ hm
  have htally := hsound.checkResolution_eq_tally hroot s
  refine ⟨fun x facet i => ?_, fun expected => ⟨fun hall => ?_, ?_⟩, ?_⟩
  · rw [finding?_eq_some_iff hbuilt, hf.metamodel_eq]
  · rw [htally, tally_eq_ok hall, Nat.zero_add]
  · intro before i after hsplit hbefore hi
    rw [htally, hsplit, tally_eq_error hbefore hi]
  · simp only [htally]
    constructor
    · rintro ⟨⟨k, hk⟩, k', hk'⟩
      -- The first finding would have to be in both states.
      cases hfindings : f.findings s root with
      | nil => rfl
      | cons i rest =>
          rw [hfindings, tally_cons] at hk hk'
          cases hi : i.reference.isResolved with
          | true => simp [hi] at hk'
          | false => simp [hi] at hk
    · intro hnone
      rw [hnone]
      exact ⟨⟨0, rfl⟩, 0, rfl⟩

/-- Symbols have an origin, which is another symbol. -/
def originProperty : Property where
  name := "origin"
  kind := .reference
  targetType := some "Symbol"
  declaredBy := "Symbol"

/-- Uses are of constants. -/
def usedProperty : Property where
  name := "used"
  kind := .reference
  targetType := some "Constant"
  declaredBy := "Use"

/-- Constants are variables and thereby symbols.  Uses are symbols, too, and inherit an
origin. -/
def useModel : Metamodel :=
  Metamodel.grow
    [.type { name := "Symbol", isAbstract := true, properties := [originProperty] },
     .type { name := "Variable", supertypes := ["Symbol"] },
     .type { name := "Constant", supertypes := ["Variable"] },
     .type { name := "Use", supertypes := ["Symbol"], properties :=
       [{ name := "parts", kind := .multiple, childType := some "Use" },
        { name := "cache", kind := .reference, visibility := .hidden }, usedProperty] }]
    { name := "uses" }

/-- A use with two others as parts, and a constant in another tree.  The use on top is
resolved, its first part has only an origin and something cached, and the last one is
unresolved. -/
def useForest : Forest :=
  run [.create "Use", .create "Use", .create "Use", .create "Constant",
    .append ⟨0⟩ "parts" ⟨1⟩, .append ⟨0⟩ "parts" ⟨2⟩,
    .setReference ⟨0⟩ "used" (some ⟨"x", some ⟨3⟩⟩), .setReference ⟨1⟩ "origin" (some ⟨"o", none⟩),
    .setReference ⟨1⟩ "cache" (some ⟨"c", some ⟨3⟩⟩), .setReference ⟨2⟩ "used" (some ⟨"y", none⟩)]
    { metamodel := useModel }

/-- Of the three references to symbols the second is the first that is unresolved; the
origins all are; and nothing refers to uses. -/
theorem resolution_exact_uses :
    useForest.findings (.target "Symbol") ⟨0⟩ =
      [⟨⟨0⟩, usedProperty, ⟨"x", some ⟨3⟩⟩⟩, ⟨⟨1⟩, originProperty, ⟨"o", none⟩⟩,
        ⟨⟨2⟩, usedProperty, ⟨"y", none⟩⟩] ∧
    useForest.checkResolution ⟨0⟩ (.target "Symbol") true =
      .error (.resolution "root.parts[0]" "origin" "o" true) ∧
    useForest.checkResolution ⟨0⟩ (.property "Symbol" "origin") false = .ok 1 ∧
    (∃ k, useForest.checkResolution ⟨0⟩ (.target "Use") true = .ok k) ∧
    ∃ k, useForest.checkResolution ⟨0⟩ (.target "Use") false = .ok k := by
  have hreachable : Reachable useModel useForest := ⟨_, rfl⟩
  have hroot : (useForest.get? ⟨0⟩).isSome := by decide +kernel
  have h := resolution_exact ((Metamodel.Built.empty "uses").grow _) hreachable hroot
  have hfindings : useForest.findings (.target "Symbol") ⟨0⟩ =
      [⟨⟨0⟩, usedProperty, ⟨"x", some ⟨3⟩⟩⟩] ++ ⟨⟨1⟩, originProperty, ⟨"o", none⟩⟩ ::
        [⟨⟨2⟩, usedProperty, ⟨"y", none⟩⟩] := by decide +kernel
  have hpath : useForest.pathText ⟨1⟩ = "root.parts[0]" := by decide +kernel
  refine ⟨hfindings, ?_, ?_, (h (.target "Use")).2.2.mpr (by decide +kernel)⟩
  · rw [((h (.target "Symbol")).2.1 true).2 _ _ _ hfindings (by decide) (by decide), hpath]
    rfl
  · rw [((h (.property "Symbol" "origin")).2.1 false).1 (by decide +kernel)]
    decide +kernel

end Forest

end TypedForest
