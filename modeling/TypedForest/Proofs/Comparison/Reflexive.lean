import TypedForest.Proofs.Comparison.Retouching

/-!
# Comparing a tree with itself

A tree passes for itself, whatever it holds and however its references run, with one
exception.  Values are compared as numbers are, and a NaN differs even from itself.  When
wire forms are compared, the exception goes away.

Two things are shown of the recursion.  Its budget bounds the height of the expected tree,
and is never used up: with any larger budget the outcome is the same, whatever a tree is
compared with (`nodes_budget_eq`).  And a difference between a tree and itself comes from
below, through the nodes that lead to it, so it is found at a NaN, and its place is read
off the path of the node (`exists_of_nodes_self`).

## Main Results

* `Comparison.nodes_budget_eq`: the budget is never used up.
* `Comparison.exists_of_nodes_self`: what is reported when a node differs from itself.
* `Comparison.steady_iff`: where all values are equal to themselves.
* `Comparison.self_comparison`: which trees pass for themselves.
-/

namespace TypedForest

namespace Comparison

open Forest

variable {c : Comparison} {expected actual f : Forest} {x : NodeId} {place : String} {e : Error}

/-! ### The budget -/

section

variable {node node' : String → NodeId → NodeId → Except Error Unit}

/-- Comparing lists of nodes compares the nodes of the expected one only. -/
theorem items_congr_node {es : List NodeId}
    (h : ∀ d ∈ es, ∀ a place, node place d a = node' place d a) (as : List NodeId) (i : Nat) :
    items node place i es as = items node' place i es as := by
  induction es generalizing as i with
  | nil => rfl
  | cons d es ih =>
      rw [List.forall_mem_cons] at h
      cases as with
      | nil => rfl
      | cons a as => rw [items, items, h.1, ih h.2]

theorem slots_congr_node {s : Slot}
    (h : ∀ d ∈ s.owned, ∀ a place, node place d a = node' place d a) (t : Slot) :
    c.slots expected actual node place s t = c.slots expected actual node' place s t := by
  cases s with
  | child d =>
      cases t with
      | child a =>
          cases d <;> cases a
          case some.some d a => exact h d (List.mem_singleton_self d) a place
          all_goals rfl
      | _ => cases d <;> rfl
  | children es =>
      cases t with
      | children as =>
          cases es <;> cases as
          case some.some es as =>
            have hitems : items node place 0 es as = items node' place 0 es as :=
              items_congr_node h as 0
            rw [slots, slots, hitems]
          all_goals rfl
      | _ => cases es <;> rfl
  | value | ignored | reference => cases t <;> rfl

theorem facets_congr_node {x : Facet}
    (h : ∀ d ∈ x.slot.owned, ∀ a place, node place d a = node' place d a)
    (counterparts : List Facet) :
    c.facets expected actual node place counterparts x =
      c.facets expected actual node' place counterparts x := by
  simp only [facets, slots_congr_node h]

end

/-- **The budget is never used up.**  With budget for the height of the expected tree, more
of it makes no difference. -/
theorem nodes_budget_eq (hexpected : expected.Sound) {budget budget' : Nat} {a : NodeId}
    (hbudget : expected.size < budget + expected.depth x)
    (hbudget' : expected.size < budget' + expected.depth x) (hx : (expected.get? x).isSome) :
    c.nodes expected actual budget place x a = c.nodes expected actual budget' place x a := by
  induction budget generalizing budget' x a place with
  | zero =>
      have hdepth := hexpected.wellFormed.depth_lt_size hx
      omega
  | succ budget ih =>
      cases budget' with
      | zero =>
          have hdepth := hexpected.wellFormed.depth_lt_size hx
          omega
      | succ budget' =>
          have hnode : ∀ facet ∈ expected.visible x, ∀ d ∈ facet.slot.owned, ∀ a place,
              c.nodes expected actual budget place d a =
                c.nodes expected actual budget' place d a := by
            intro facet hfacet d hd a place
            have hchild := mem_children_of_mem_owned hfacet hd
            have hdepth := hexpected.wellFormed.depth_of_parent
              (hexpected.parent?_of_mem_children hchild)
            exact ih (by omega) (by omega) (hexpected.isSome_of_mem_children hchild)
          have hfacets : ∀ counterparts,
              (expected.visible x).forM
                  (facets c expected actual (c.nodes expected actual budget) place counterparts) =
                (expected.visible x).forM
                  (facets c expected actual (c.nodes expected actual budget') place
                    counterparts) := by
            intro counterparts
            simpa using forM_map_congr (k := id) fun facet hfacet =>
              facets_congr_node (hnode facet hfacet) counterparts
          simp only [nodes, hexpected.publicFacets_eq_visible hx, hfacets, bind, Except.bind]

/-! ### What differs from itself -/

/-- A loop fails as one of its items does. -/
theorem exists_of_forM {α : Type} {act : α → Except Error Unit} {l : List α}
    (h : l.forM act = .error e) : ∃ a ∈ l, act a = .error e := by
  induction l with
  | nil => cases h
  | cons a l ih =>
      change (act a >>= fun _ => l.forM act) = .error e at h
      cases hact : act a with
      | error e' =>
          rw [hact] at h
          exact ⟨a, List.mem_cons_self, hact.trans h⟩
      | ok u =>
          rw [hact] at h
          obtain ⟨b, hb, hfails⟩ := ih h
          exact ⟨b, List.mem_cons_of_mem _ hb, hfails⟩

section

variable {node : String → NodeId → NodeId → Except Error Unit}

/-- A list differs from itself as one of its nodes does, at the place of this node. -/
theorem exists_of_items_self {es : List NodeId} (hnodup : es.Nodup) {k : Nat}
    (h : items node place k es es = .error e) :
    ∃ d ∈ es, ∃ i, es.findIdx? (fun d' => d' == d) = some i ∧
      node (place ++ "[" ++ toString (k + i) ++ "]") d d = .error e := by
  induction es generalizing k with
  | nil => cases h
  | cons d es ih =>
      obtain ⟨hnew, hnodup⟩ := List.nodup_cons.mp hnodup
      rw [items] at h
      cases hnode : node s!"{place}[{k}]" d d with
      | error e' =>
          rw [hnode] at h
          refine ⟨d, List.mem_cons_self, 0, by simp [List.findIdx?_cons], ?_⟩
          exact hnode.trans h
      | ok u =>
          rw [hnode] at h
          obtain ⟨d', hd', i, hi, hfails⟩ := ih hnodup h
          have hne : d ≠ d' := (ne_of_mem_of_not_mem hd' hnew).symm
          refine ⟨d', List.mem_cons_of_mem _ hd', i + 1, ?_, ?_⟩
          · rw [List.findIdx?_cons, if_neg (by simpa using hne), hi]
            rfl
          · rwa [show k + (i + 1) = k + 1 + i by omega]

/-- A slot differs from itself because its value does, or as one of its nodes does. -/
theorem exists_of_slots_self {s : Slot} (hnodup : s.owned.Nodup) {name : String}
    (h : c.slots f f node (place ++ "." ++ name) s s = .error e) :
    (∃ v, s = .value v ∧ c.sameValue v v = false ∧
      e = .different (place ++ "." ++ name) (.value v v)) ∨
    ∃ d ∈ s.owned, node (place ++ "." ++ Path.Step.text ⟨name, s.indexOf? d⟩) d d = .error e := by
  cases s with
  | value v =>
      rw [slots] at h
      split at h
      · cases h
      case isFalse hvalue =>
        exact .inl ⟨v, rfl, Bool.eq_false_iff.mpr hvalue, (Except.error.inj h).symm⟩
  | child d =>
      cases d with
      | none => cases h
      | some d => exact .inr ⟨d, List.mem_singleton_self d, h⟩
  | children es =>
      cases es with
      | none => cases h
      | some es =>
          rw [slots, if_pos rfl] at h
          obtain ⟨d, hd, i, hi, hfails⟩ := exists_of_items_self hnodup h
          have hindex : (Slot.children (some es)).indexOf? d = some i := hi
          have hplace : place ++ "." ++ name ++ "[" ++ toString (0 + i) ++ "]" =
              place ++ "." ++ Path.Step.text ⟨name, some i⟩ := by
            show _ = place ++ "." ++ (name ++ "[" ++ toString i ++ "]")
            simp only [Nat.zero_add, String.append_assoc]
          exact .inr ⟨d, hd, by rwa [hindex, ← hplace]⟩
  | ignored => cases h
  | reference r =>
      have hok : references f f (place ++ "." ++ name) r r = .ok () :=
        references_eq_ok_iff.mpr rfl
      rw [slots, hok] at h
      cases h

end

/-- **What is reported when a node differs from itself.**  It is a value in the tree that
differs from itself, at the place that the rest of the path leads to.  The induction
follows the comparison down to that value. -/
theorem exists_of_nodes_self (hf : f.Sound) (hm : f.metamodel.Built) {budget : Nat}
    (hbudget : f.size < budget + f.depth x) (hx : (f.get? x).isSome)
    (h : c.nodes f f budget place x x = .error e) :
    ∃ z ∈ f.preorder x, ∃ p v steps, ⟨p, .value v⟩ ∈ f.visible z ∧ c.sameValue v v = false ∧
      f.path z = f.path x ++ steps ∧
      e = .different (Path.text place steps ++ "." ++ p.name) (.value v v) := by
  induction budget generalizing x place with
  | zero =>
      have hdepth := hf.wellFormed.depth_lt_size hx
      omega
  | succ budget ih =>
      rw [nodes_succ_eq (.refl hf hm) hx] at h
      obtain ⟨q, hq, hfails⟩ := exists_of_forM h
      obtain ⟨j, hslot⟩ := hf.exists_hasSlot hm hx hq
      rcases exists_of_slots_self (hslot.nodup_owned hf.wellFormed) hfails with
        ⟨v, hcontent, hvalue, rfl⟩ | ⟨d, hd, hbelow⟩
      · refine ⟨x, hf.mem_preorder_self hx, q, v, [], ?_, hvalue, (List.append_nil _).symm, ?_⟩
        · exact (hf.mem_visible_iff hm).mpr ⟨hx, hq, hcontent⟩
        · simp [Path.text]
      · have hchild := (hf.mem_children_iff hm hx).mpr ⟨q, hq, hd⟩
        have hdepth := hf.wellFormed.depth_of_parent (hf.parent?_of_mem_children hchild)
        have hholds : f.Holds x j q (f.content x q) d := ⟨hslot, hd⟩
        obtain ⟨z, hz, p, v, steps, hfacet, hvalue, hpath, rfl⟩ :=
          ih (by omega) (hf.isSome_of_mem_children hchild) hbelow
        refine ⟨z, (hf.mem_preorder hx).mpr (.inr ⟨d, hchild, hz⟩), p, v,
          ⟨q.name, (f.content x q).indexOf? d⟩ :: steps, hfacet, hvalue, ?_, ?_⟩
        · rw [hpath, hholds.path_eq hf.wellFormed, List.append_assoc]
          rfl
        · rw [Path.text_cons]

/-! ### Values that are equal to themselves -/

/-- By wire forms every value is equal to itself, and otherwise all but NaNs are. -/
theorem sameValue_self_iff {v : Value} :
    c.sameValue v v = true ↔ c.lightweight = true ∨ v.isNaN = false := by
  unfold sameValue
  cases c.lightweight <;> simp [Value.equal_self_iff]

/-- **Where all values are equal to themselves.** -/
theorem steady_iff (hf : f.Sound) (hm : f.metamodel.Built) :
    c.Steady f x ↔ c.lightweight = true ∨
      ∀ z ∈ f.preorder x, ∀ facet ∈ f.visible z, ∀ v ∈ facet.slot.value?, v.isNaN = false := by
  have hvisible : ∀ z, ∀ facet ∈ f.visible z, facet.slot = f.content z facet.property ∧
      facet.property ∈ f.metamodel.publicProperties (f.typeOf z) := by
    rintro z ⟨p, s⟩ hfacet
    obtain ⟨-, hp, rfl⟩ := (hf.mem_visible_iff hm).mp hfacet
    exact ⟨rfl, hp⟩
  constructor
  · intro h
    refine or_iff_not_imp_left.mpr fun hlight z hz facet hfacet v hv => ?_
    obtain ⟨hslot, hp⟩ := hvisible z facet hfacet
    exact (sameValue_self_iff.mp (h z hz _ hp v (hslot ▸ hv))).resolve_left hlight
  · intro h z hz q hq v hv
    refine sameValue_self_iff.mpr (h.imp_right fun hnan => ?_)
    have hfacet : ⟨q, f.content z q⟩ ∈ f.visible z :=
      (hf.mem_visible_iff hm).mpr ⟨hf.exists_of_mem_preorder hz, hq, rfl⟩
    exact hnan z hz _ hfacet v hv

/-- **Which trees pass for themselves.**  In a forest that edits lead to, a tree is compared
with itself, under any strictness; the root may be any node.  The comparison ends by
itself: with any larger budget its outcome is the same.  It passes if and only if wire forms
are compared or no public attribute in the tree is a NaN.  Otherwise it reports such a NaN
at its place. -/
theorem self_comparison {m : Metamodel} (hm : m.Built) {f : Forest} (hf : Reachable m f)
    {root : NodeId} (hroot : (f.get? root).isSome) (c : Comparison) :
    (∀ budget, f.size < budget →
      c.nodes f f budget rootPlace root root = c.trees f root f root) ∧
    (c.trees f root f root = .ok () ↔ c.lightweight = true ∨
      ∀ x ∈ f.preorder root, ∀ facet ∈ f.visible x, ∀ v ∈ facet.slot.value?, v.isNaN = false) ∧
    ∀ e, c.trees f root f root = .error e →
      ∃ x ∈ f.preorder root, ∃ p v steps, ⟨p, .value v⟩ ∈ f.visible x ∧ v.isNaN = true ∧
        f.path x = f.path root ++ steps ∧
        e = .different (Path.text rootPlace steps ++ "." ++ p.name) (.value v v) := by
  have hsound := hf.sound
  have hbuilt : f.metamodel.Built := hf.metamodel_eq ▸ hm
  have hbudget : f.size < f.size + 1 + f.depth root := by omega
  refine ⟨fun budget hlarge => ?_, ?_, fun e he => ?_⟩
  · exact nodes_budget_eq hsound (by omega) hbudget hroot
  · rw [← steady_iff hsound hbuilt]
    constructor
    · -- Nothing is new, so any property will do for the one that might be.
      exact (retouched_self hsound hbuilt root { name := "", kind := .value }).steady_of_trees
        (.inr rfl)
    · intro hsteady
      cases htrees : c.trees f root f root with
      | ok u => rfl
      | error e =>
          obtain ⟨z, hz, p, v, -, hfacet, hvalue, -⟩ :=
            exists_of_nodes_self hsound hbuilt hbudget hroot htrees
          obtain ⟨-, hp, hcontent⟩ := (hsound.mem_visible_iff hbuilt).mp hfacet
          rw [hsteady z hz p hp v (by simp [hcontent, Slot.value?])] at hvalue
          cases hvalue
  · obtain ⟨z, hz, p, v, steps, hfacet, hvalue, hpath, rfl⟩ :=
      exists_of_nodes_self hsound hbuilt hbudget hroot he
    refine ⟨z, hz, p, v, steps, hfacet, ?_, hpath, rfl⟩
    rw [← Bool.not_eq_false]
    intro hnan
    rw [sameValue_self_iff.mpr (.inr hnan)] at hvalue
    cases hvalue

/-- An item with two parts.  The first has a NaN.  The second has an absent list, and it and
its body, which has an ignored list, refer to each other.  A hidden item and a derived
attribute hold NaNs, and the item at the root refers to one outside of the tree. -/
def loopForest : Forest :=
  Forest.run [.create "Item", .create "Item", .create "Item", .create "Item", .create "Item",
    .create "Item", .append ⟨0⟩ "parts" ⟨1⟩, .append ⟨0⟩ "parts" ⟨2⟩,
    .setChild ⟨2⟩ "body" (some ⟨3⟩), .setChild ⟨2⟩ "shadow" (some ⟨4⟩), .clear ⟨2⟩ "parts",
    .ignore ⟨3⟩ "parts", .setReference ⟨2⟩ "link" (some ⟨"down", some ⟨3⟩⟩),
    .setReference ⟨3⟩ "link" (some ⟨"up", some ⟨2⟩⟩),
    .setReference ⟨0⟩ "link" (some ⟨"out", some ⟨5⟩⟩),
    .setValue ⟨1⟩ "size" (.float ⟨true, Binary64.quietNaN, Binary64.quietNaN_lt⟩),
    .setValue ⟨4⟩ "size" (.float ⟨true, Binary64.quietNaN, Binary64.quietNaN_lt⟩),
    .setValue ⟨2⟩ "total" (.float ⟨true, Binary64.quietNaN, Binary64.quietNaN_lt⟩)]
    { metamodel := Document.itemModel }

/-- The second part passes for itself under every strictness, the whole only by wire forms. -/
theorem self_comparison_loops :
    (loopForest.preorder ⟨0⟩ = [⟨0⟩, ⟨1⟩, ⟨2⟩, ⟨3⟩] ∧ loopForest.parent? ⟨2⟩ = some ⟨0⟩) ∧
    ∀ c : Comparison, c.trees loopForest ⟨2⟩ loopForest ⟨2⟩ = .ok () ∧
      (c.trees loopForest ⟨0⟩ loopForest ⟨0⟩ = .ok () ↔ c.lightweight = true) ∧
      c.nodes loopForest loopForest 100 rootPlace ⟨0⟩ ⟨0⟩ =
        c.trees loopForest ⟨0⟩ loopForest ⟨0⟩ := by
  have hreachable : Reachable Document.itemModel loopForest := ⟨_, rfl⟩
  have hroot : (loopForest.get? ⟨0⟩).isSome := by decide +kernel
  have hpart : (loopForest.get? ⟨2⟩).isSome := by decide +kernel
  have hnan : ¬ ∀ x ∈ loopForest.preorder ⟨0⟩, ∀ facet ∈ loopForest.visible x,
      ∀ v ∈ facet.slot.value?, v.isNaN = false := by decide +kernel
  refine ⟨by decide +kernel, fun c => ?_⟩
  obtain ⟨hbudget, hwhole, -⟩ := self_comparison Document.itemModel_built hreachable hroot c
  obtain ⟨-, hsecond, -⟩ := self_comparison Document.itemModel_built hreachable hpart c
  exact ⟨hsecond.mpr (.inr (by decide +kernel)), hwhole.trans (or_iff_left hnan),
    hbudget 100 (by decide +kernel)⟩

end Comparison

end TypedForest
