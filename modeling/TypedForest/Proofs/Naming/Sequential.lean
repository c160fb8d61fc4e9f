import TypedForest.Proofs.Naming.Assignment
import TypedForest.Proofs.Path.Identifier

/-!
# Identifiers by counting

The sequential namer numbers the nodes of a list in the order in which they are first
visited: it is asked once for each node, and its counter moves only then.  As decimal
texts determine numbers, no identifier is given twice until the counter has gone
through all numbers of 64 bits.  Two lists of the same nodes, such as the two
traversals of a tree, are therefore numbered with the same identifiers.

## Main Definitions

* `numbered`, `Naming.Numbers`: the nodes of a list with consecutive numbers, and a
  naming that holds them.
* `firstVisits`: the nodes of a list in the order in which they are first visited.

## Main Results

* `Namer.interview_sequential`: the transcript of the sequential namer.
* `Forest.exists_assignIds_sequential`: the outcome of an assignment.
* `Forest.sequential_numbering`: which numbers the nodes get, and that both traversals
  of a tree use the same ones.
-/

namespace TypedForest

/-! ### Numbered lists -/

/-- Nodes with the numbers from a start on. -/
def numbered (nodes : List NodeId) (start : Nat) : List (NodeId × String) :=
  (nodes.zipIdx start).map fun entry => (entry.1, toString entry.2)

section Numbered

variable {nodes : List NodeId} {node : NodeId}

theorem map_fst_numbered (nodes : List NodeId) (start : Nat) :
    (numbered nodes start).map Prod.fst = nodes := by
  rw [numbered, List.map_map]
  exact List.zipIdx_map_fst start nodes

theorem map_snd_numbered (nodes : List NodeId) (start : Nat) :
    (numbered nodes start).map Prod.snd = (List.range' start nodes.length).map toString := by
  rw [numbered, List.map_map, ← List.zipIdx_map_snd, List.map_map]
  rfl

/-- Different numbers have different decimal texts. -/
theorem nodup_map_snd_numbered (nodes : List NodeId) (start : Nat) :
    ((numbered nodes start).map Prod.snd).Nodup := by
  rw [map_snd_numbered]
  refine (List.nodup_range' 1).map fun a b h => ?_
  simp only [Nat.toString_eq_repr, Nat.repr_eq_ofList_toDigits] at h
  exact Path.Step.toDigits_ten_injective (String.ofList_injective h)

/-- The place of a node is its distance from the start. -/
theorem mem_numbered {j : Nat} (h : nodes[j]? = some node) (start : Nat) :
    (node, toString (start + j)) ∈ numbered nodes start := by
  refine List.mem_map.mpr ⟨(node, start + j), ?_, rfl⟩
  refine List.mem_of_getElem? (i := j) ?_
  rw [List.getElem?_zipIdx, h, Option.map_some]

end Numbered

/-- The naming counts through a list of nodes. -/
structure Naming.Numbers (m : Naming) (nodes : List NodeId) (start : Nat) : Prop where
  consistent : m.Consistent
  entries_eq : m.entries = numbered nodes start

namespace Naming.Numbers

variable {m : Naming} {nodes : List NodeId} {node : NodeId} {start : Nat}

theorem order_eq (h : m.Numbers nodes start) : m.order = nodes := by
  rw [← h.consistent.map_fst_entries, h.entries_eq, map_fst_numbered]

theorem size_eq (h : m.Numbers nodes start) : m.size = nodes.length := by
  rw [size, h.order_eq]

theorem isSome_get?_iff (h : m.Numbers nodes start) (node : NodeId) :
    (m.get? node).isSome = true ↔ node ∈ nodes := by
  rw [← h.order_eq]
  exact (h.consistent.mem_order node).symm

theorem isSome_node?_iff (h : m.Numbers nodes start) (id : String) :
    (m.node? id).isSome = true ↔ id ∈ (List.range' start nodes.length).map toString := by
  rw [← h.consistent.mem_used, used, h.entries_eq, map_snd_numbered]

theorem get?_eq (h : m.Numbers nodes start) {j : Nat} (hj : nodes[j]? = some node) :
    m.get? node = some (toString (start + j)) := by
  rw [← h.consistent.mem_entries, h.entries_eq]
  exact mem_numbered hj start

end Naming.Numbers

/-! ### First visits -/

/-- The nodes of a list that have not been named, in the order in which they are first
visited. -/
def firstVisits (named nodes : List NodeId) : List NodeId :=
  (nodes.filter fun node => node ∉ named).eraseDups

section FirstVisits

variable {named nodes : List NodeId} {node : NodeId}

theorem firstVisits_nil_left (nodes : List NodeId) : firstVisits [] nodes = nodes.eraseDups := by
  simp [firstVisits]

theorem mem_firstVisits : node ∈ firstVisits named nodes ↔ node ∈ nodes ∧ node ∉ named := by
  simp [firstVisits]

theorem firstVisits_of_mem (h : node ∈ named) :
    firstVisits named (node :: nodes) = firstVisits named nodes := by
  simp [firstVisits, h]

/-- A visit counts against the later visits of the node. -/
theorem firstVisits_of_not_mem (h : node ∉ named) :
    firstVisits named (node :: nodes) = node :: firstVisits (named ++ [node]) nodes := by
  rw [firstVisits, List.filter_cons_of_pos (by simpa using h), List.eraseDups_cons,
    List.filter_filter]
  congr 3
  funext other
  by_cases hother : other = node <;> simp [hother]

theorem nodup_firstVisits (named nodes : List NodeId) : (firstVisits named nodes).Nodup := by
  induction nodes generalizing named with
  | nil => exact List.nodup_nil
  | cons node nodes ih =>
      by_cases h : node ∈ named
      · rw [firstVisits_of_mem h]
        exact ih named
      · rw [firstVisits_of_not_mem h]
        refine List.nodup_cons.mpr ⟨fun hmem => ?_, ih (named ++ [node])⟩
        exact (mem_firstVisits.mp hmem).2 (by simp)

theorem nodup_eraseDups (nodes : List NodeId) : nodes.eraseDups.Nodup :=
  firstVisits_nil_left nodes ▸ nodup_firstVisits [] nodes

/-- Distinct nodes are first visited one by one. -/
theorem perm_eraseDups {nodes' : List NodeId} (hnodup : nodes.Nodup)
    (hperm : nodes.Perm nodes') : nodes.Perm nodes'.eraseDups := by
  rw [List.perm_ext_iff_of_nodup hnodup (nodup_eraseDups nodes')]
  intro node
  rw [List.mem_eraseDups, hperm.mem_iff]

end FirstVisits

/-! ### The sequential namer -/

/-- **The sequential namer counts first visits.**  The counter does not wrap around as
long as the numbers fit into 64 bits. -/
theorem Namer.interview_sequential (f : Forest) (named nodes : List NodeId) (start : Nat)
    (h : start + (firstVisits named nodes).length < UInt64.size) :
    Namer.sequential.Interview f named nodes start
      (.ofGiven (numbered (firstVisits named nodes) start))
      (start + (firstVisits named nodes).length) := by
  induction nodes generalizing named start with
  | nil => exact .done
  | cons node nodes ih =>
      by_cases hnode : node ∈ named
      · rw [firstVisits_of_mem hnode] at h ⊢
        exact .pass hnode (ih named start h)
      · rw [firstVisits_of_not_mem hnode, List.length_cons, ← Nat.add_assoc,
          Nat.add_right_comm] at h ⊢
        have hask : Namer.sequential.next f node start = (some (toString start), start + 1) := by
          have hfits : start + 1 < UInt64.size := Nat.lt_of_le_of_lt (Nat.le_add_right _ _) h
          simp only [sequential, Nat.mod_eq_of_lt hfits]
        exact .name hnode hask (ih (named ++ [node]) (start + 1) h)

namespace Forest

variable {f : Forest} {root : NodeId} {n : Nat}

/-- **Assignment by counting succeeds and numbers the nodes by their first visits.** -/
theorem exists_assignIds_sequential (hcheck : f.checkTree root = .ok n) (nodes : List NodeId)
    {start : Nat} (h : start + nodes.eraseDups.length < UInt64.size) :
    ∃ ids, f.assignIds root nodes .sequential start =
      .ok ids (start + nodes.eraseDups.length) ∧ ids.Numbers nodes.eraseDups start := by
  have hlog := Namer.interview_sequential f [] nodes start
  rw [firstVisits_nil_left] at hlog
  obtain ⟨ids, hrun, hconsistent, hentries⟩ := (hlog h).exists_assignIds_eq_ok hcheck (by
    rw [Transcript.ids, Transcript.given_ofGiven]
    exact nodup_map_snd_numbered _ _)
  rw [Transcript.given_ofGiven] at hentries
  exact ⟨ids, hrun, hconsistent, hentries⟩

/-- **Counting gives consecutive numbers in the order of first visits.**  Wherever the
check succeeds, assignment along any list gives the `j`-th node, counted without
repetitions, the number `j` places after the start, and the counter ends behind the
last one.  Along the two traversals of a tree the same nodes are numbered, with the
same numbers. -/
theorem sequential_numbering (f : Forest) (root : NodeId) (start : Nat) :
    (∀ (n : Nat) (nodes : List NodeId), f.checkTree root = .ok n →
      start + nodes.eraseDups.length < UInt64.size →
      ∃ ids, f.assignIds root nodes .sequential start =
          .ok ids (start + nodes.eraseDups.length) ∧
        (∀ (j : Nat) (node : NodeId), nodes.eraseDups[j]? = some node →
          ids.get? node = some (toString (start + j))) ∧
        ids.size = nodes.eraseDups.length ∧ (ids.entries.map Prod.snd).Nodup) ∧
    ∀ m : Metamodel, Reachable m f → (f.get? root).isSome →
      start + (f.preorder root).length < UInt64.size →
      ∃ down up final, f.assignIds root (f.preorder root) .sequential start = .ok down final ∧
        f.assignIds root (f.postorder root) .sequential start = .ok up final ∧
        (∀ node, (down.get? node).isSome ↔ node ∈ f.preorder root) ∧
        (∀ node, (up.get? node).isSome ↔ (down.get? node).isSome) ∧
        ∀ id, (up.node? id).isSome ↔ (down.node? id).isSome := by
  constructor
  · intro n nodes hcheck hfits
    obtain ⟨ids, hrun, hids⟩ := exists_assignIds_sequential hcheck nodes hfits
    exact ⟨ids, hrun, fun j node hj => hids.get?_eq hj, hids.size_eq, hids.consistent.nodup_used⟩
  · intro m hf hroot hfits
    have hcheck := hf.sound.checkTree_eq hroot
    have hnodup := hf.sound.nodup_preorder root
    have hdown := perm_eraseDups hnodup (.refl _)
    have hup := perm_eraseDups hnodup (hf.sound.perm_postorder root)
    obtain ⟨down, hrun, hids⟩ :=
      exists_assignIds_sequential hcheck (f.preorder root) (hdown.length_eq ▸ hfits)
    obtain ⟨up, hrun', hids'⟩ :=
      exists_assignIds_sequential hcheck (f.postorder root) (hup.length_eq ▸ hfits)
    rw [← hdown.length_eq] at hrun
    rw [← hup.length_eq] at hrun'
    refine ⟨down, up, _, hrun, hrun', fun node => ?_, fun node => ?_, fun id => ?_⟩
    · rw [hids.isSome_get?_iff, hdown.mem_iff]
    · rw [hids.isSome_get?_iff, hids'.isSome_get?_iff, ← hup.mem_iff, hdown.mem_iff]
    -- Both lists are counted through from the same start, and they are equally long.
    · rw [hids.isSome_node?_iff, hids'.isSome_node?_iff, ← hup.length_eq, hdown.length_eq]

/-- A list with repetitions, numbered up to the largest counter. -/
theorem sequential_numbering_parts :
    (∃ ids, partForest.assignIds ⟨0⟩ [⟨3⟩, ⟨0⟩, ⟨3⟩, ⟨7⟩, ⟨0⟩] .sequential
        18446744073709551612 = .ok ids 18446744073709551615 ∧
      ids.get? ⟨7⟩ = some "18446744073709551614" ∧ ids.size = 3) ∧
    ∃ down up final, partForest.assignIds ⟨0⟩ (partForest.preorder ⟨0⟩) .sequential 9 =
        .ok down final ∧
      partForest.assignIds ⟨0⟩ (partForest.postorder ⟨0⟩) .sequential 9 = .ok up final ∧
      partForest.preorder ⟨0⟩ ≠ partForest.postorder ⟨0⟩ ∧
      ∀ id, (up.node? id).isSome ↔ (down.node? id).isSome := by
  constructor
  · have hcheck : partForest.checkTree ⟨0⟩ = .ok 5 := by decide +kernel
    obtain ⟨ids, hrun, hnumber, hsize, -⟩ := (sequential_numbering partForest ⟨0⟩
      18446744073709551612).1 _ [⟨3⟩, ⟨0⟩, ⟨3⟩, ⟨7⟩, ⟨0⟩] hcheck (by decide)
    exact ⟨ids, hrun, hnumber 2 ⟨7⟩ rfl, hsize⟩
  · have hreach : Reachable partModel partForest := ⟨_, rfl⟩
    obtain ⟨down, up, final, hdown, hup, -, -, hids⟩ := (sequential_numbering partForest ⟨0⟩ 9).2
      partModel hreach (by decide +kernel) (by decide +kernel)
    exact ⟨down, up, final, hdown, hup, by decide +kernel, hids⟩

end Forest

end TypedForest
