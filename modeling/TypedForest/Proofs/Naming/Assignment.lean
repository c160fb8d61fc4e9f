import TypedForest.Naming
import TypedForest.Proofs.Dictionary
import TypedForest.Proofs.Forest.Orders

/-!
# Assignment of identifiers

Identifiers are assigned along a list of nodes, which may repeat nodes and hold
numbers that no node has, and by a namer with a state of its own, which may decline.
What happens is best told by the transcript of the questions: at a visit of a node
that has no identifier yet the namer is asked, and a node that it has named is not
asked for again (`Namer.Interview`).  Assignment succeeds exactly if the transcript
gives no identifier to two nodes, and the naming then is what the transcript gives.

A naming keeps two dictionaries and a list, and each look-up reads one of them.  They
are written one by one; that they agree (`Naming.Consistent`) is what every step of an
assignment keeps, because a node is written down only if it has no identifier and the
identifier has no node.

## Main Definitions

* `Transcript`, `Transcript.given`: questions with their answers, and the identifiers
  among them.
* `Transcript.ofGiven`: a transcript without declined questions.
* `Namer.Interview`: the transcript of a namer along a list of nodes.
* `Naming.Consistent`: the parts of a naming agree.
* `Naming.Reports`: a naming is what a transcript gives.

## Main Results

* `Naming.Consistent.enter`: what one step keeps.
* `Interview.exists_foldlM_eq_ok`, `Interview.foldlM_eq_error`: the outcome of an
  assignment, read off the transcript.
* `Forest.assignment_injective`: what an assignment results in, whatever the list and
  the namer.
-/

namespace TypedForest

/-- Nodes that a namer was asked for, with its answers. -/
abbrev Transcript := List (NodeId × Option String)

/-! ### Transcripts -/

namespace Transcript

variable {log before after : Transcript} {node other : NodeId} {id : String}

/-- The identifiers that were given, with their nodes. -/
def given (log : Transcript) : List (NodeId × String) :=
  log.filterMap fun visit => visit.2.map fun id => (visit.1, id)

/-- The identifiers that were given. -/
def ids (log : Transcript) : List String := log.given.map Prod.snd

@[simp] theorem given_nil : given [] = [] := rfl

@[simp] theorem given_decline (node : NodeId) (log : Transcript) :
    given ((node, none) :: log) = given log := rfl

@[simp] theorem given_name (node : NodeId) (id : String) (log : Transcript) :
    given ((node, some id) :: log) = (node, id) :: given log := rfl

@[simp] theorem ids_nil : ids [] = [] := rfl

@[simp] theorem ids_decline (node : NodeId) (log : Transcript) :
    ids ((node, none) :: log) = ids log := rfl

@[simp] theorem ids_name (node : NodeId) (id : String) (log : Transcript) :
    ids ((node, some id) :: log) = id :: ids log := rfl

theorem ids_append (before after : Transcript) :
    ids (before ++ after) = before.ids ++ after.ids := by
  simp [ids, given]

theorem mem_given : (node, id) ∈ log.given ↔ (node, some id) ∈ log := by
  rw [given, List.mem_filterMap]
  constructor
  · rintro ⟨⟨other, answer⟩, hmem, hsome⟩
    obtain ⟨id', rfl, heq⟩ := Option.map_eq_some_iff.mp hsome
    obtain ⟨rfl, rfl⟩ := Prod.mk.injEq .. ▸ heq
    exact hmem
  · intro hmem
    exact ⟨(node, some id), hmem, rfl⟩

theorem mem_ids : id ∈ log.ids ↔ ∃ node, (node, some id) ∈ log := by
  rw [ids, List.mem_map]
  constructor
  · rintro ⟨⟨node, _⟩, hmem, rfl⟩
    exact ⟨node, mem_given.mp hmem⟩
  · rintro ⟨node, hmem⟩
    exact ⟨(node, id), mem_given.mpr hmem, rfl⟩

/-- A node that was named is not asked for again. -/
def AsksOnce (log : Transcript) : Prop :=
  log.Pairwise fun earlier later => earlier.2.isSome → later.1 ≠ earlier.1

theorem AsksOnce.not_mem_after (h : AsksOnce (before ++ (node, some id) :: after))
    (answer : Option String) : (node, answer) ∉ after := by
  intro hmem
  exact (List.pairwise_cons.mp (List.pairwise_append.mp h).2.1).1 _ hmem rfl rfl

theorem AsksOnce.ne_of_mem_before (h : AsksOnce (before ++ (node, some id) :: after))
    (hother : (other, some id) ∈ before) : other ≠ node := fun heq =>
  (List.pairwise_append.mp h).2.2 _ hother _ List.mem_cons_self rfl heq.symm

/-- Each node is named once. -/
theorem AsksOnce.nodup_nodes (h : log.AsksOnce) : (log.given.map Prod.fst).Nodup := by
  rw [List.Nodup, List.pairwise_map, given, List.pairwise_filterMap]
  refine List.Pairwise.imp ?_ h
  rintro ⟨node, answer⟩ ⟨other, answer'⟩ hask entry hentry entry' hentry' heq
  obtain ⟨id, rfl, rfl⟩ := Option.map_eq_some_iff.mp hentry
  obtain ⟨id', rfl, rfl⟩ := Option.map_eq_some_iff.mp hentry'
  exact hask rfl heq.symm

/-- If an identifier was given twice, there is a visit at which this first happened.
The identifiers that are in use before the first visit count as well. -/
theorem exists_first_repeat (named : List String) (hnamed : named.Nodup)
    (h : ¬ (named ++ log.ids).Nodup) :
    ∃ (before : Transcript) (node : NodeId) (id : String) (after : Transcript),
      log = before ++ (node, some id) :: after ∧
        (named ++ before.ids).Nodup ∧ id ∈ named ++ before.ids := by
  induction log generalizing named with
  | nil => simp [hnamed] at h
  | cons visit log ih =>
      obtain ⟨node, answer⟩ := visit
      cases answer with
      | none =>
          obtain ⟨before, node', id, after, rfl, hnodup, hmem⟩ := ih named hnamed h
          exact ⟨(node, none) :: before, node', id, after, rfl, hnodup, hmem⟩
      | some id =>
          by_cases hid : id ∈ named
          · exact ⟨[], node, id, log, rfl, by simpa using hnamed, by simpa using hid⟩
          · have hshift : ∀ rest : Transcript,
                named ++ ids ((node, some id) :: rest) = (named ++ [id]) ++ rest.ids := by simp
            rw [hshift] at h
            have hnodup : (named ++ [id]).Nodup := by
              rw [List.nodup_append']
              exact ⟨hnamed, List.nodup_singleton id, List.disjoint_singleton.mpr hid⟩
            obtain ⟨before, node', id', after, rfl, hnodup, hmem⟩ := ih _ hnodup h
            refine ⟨(node, some id) :: before, node', id', after, rfl, ?_, ?_⟩
            · rwa [hshift]
            · rwa [hshift]

/-- Identifiers are distinct unless a node is given one that another node has. -/
theorem AsksOnce.not_nodup_ids_iff (h : log.AsksOnce) :
    ¬ log.ids.Nodup ↔ ∃ before node id after other,
      log = before ++ (node, some id) :: after ∧ (other, some id) ∈ before ∧ other ≠ node := by
  constructor
  · intro hids
    obtain ⟨before, node, id, after, rfl, -, hmem⟩ :=
      exists_first_repeat [] List.nodup_nil hids
    obtain ⟨other, hother⟩ := mem_ids.mp hmem
    exact ⟨before, node, id, after, other, rfl, hother, h.ne_of_mem_before hother⟩
  · rintro ⟨before, node, id, after, other, rfl, hother, -⟩ hids
    rw [ids_append, ids_name] at hids
    exact not_mem_of_nodup_append hids (mem_ids.mpr ⟨other, hother⟩)

end Transcript

/-- The transcript of a namer that named every node it was asked for. -/
def Transcript.ofGiven (given : List (NodeId × String)) : Transcript :=
  given.map fun entry => (entry.1, some entry.2)

@[simp] theorem Transcript.given_ofGiven (given : List (NodeId × String)) :
    (ofGiven given).given = given := by
  rw [Transcript.given, ofGiven, List.filterMap_map]
  exact List.filterMap_some

/-! ### Namings whose parts agree -/

namespace Naming

variable {f : Forest} {m : Naming} {node other : NodeId} {id : String}

/-- The identifiers that are in use. -/
def used (m : Naming) : List String := m.entries.map Prod.snd

/-- The two dictionaries go opposite ways, and the list holds their nodes once. -/
structure Consistent (m : Naming) : Prop where
  inverse : ∀ node id, m.get? node = some id ↔ m.node? id = some node
  mem_order : ∀ node, node ∈ m.order ↔ m.contains node
  nodup_order : m.order.Nodup

theorem consistent_empty : Consistent {} where
  inverse _ _ := by simp [get?, node?]
  mem_order _ := by simp [contains, Dictionary.contains]
  nodup_order := List.nodup_nil

theorem contains_iff : m.contains node = true ↔ ∃ id, m.get? node = some id :=
  Option.isSome_iff_exists

theorem get?_enter (m : Naming) (node other : NodeId) (id : String) :
    (m.enter node id).get? other = if node = other then some id else m.get? other :=
  m.ids.get?_insert node other id

theorem node?_enter (m : Naming) (node : NodeId) (id other : String) :
    (m.enter node id).node? other = if id = other then some node else m.node? other :=
  m.nodes.get?_insert id other node

/-- The entry is added behind the others, which stay as they are. -/
theorem entries_enter (hnode : node ∉ m.order) :
    (m.enter node id).entries = m.entries ++ [(node, id)] := by
  show (m.order ++ [node]).filterMap (fun other => ((m.enter node id).get? other).map _) = _
  rw [List.filterMap_append, List.filterMap_congr (g := fun other => (m.get? other).map fun id =>
    (other, id)), List.filterMap_cons, get?_enter, if_pos rfl]
  · rfl
  · intro other hother
    have hne : node ≠ other := fun heq => hnode (heq ▸ hother)
    rw [get?_enter, if_neg hne]

/-- An identifier is refused exactly if it has a node. -/
theorem insert_eq (f : Forest) (m : Naming) (node : NodeId) (id : String) :
    m.insert f node id =
      if (m.node? id).isSome then .error (.repeatedId id (f.label node))
      else .ok (m.enter node id) := rfl

namespace Consistent

/-- **A node without identifier and an identifier without node can be written down.** -/
theorem enter (h : m.Consistent) (hnode : node ∉ m.order) (hid : m.node? id = none) :
    (m.enter node id).Consistent where
  inverse node' id' := by
    have hget : m.get? node = none := by
      simpa [contains_iff, ← Option.ne_none_iff_exists'] using mt (h.mem_order node).mpr hnode
    rw [get?_enter, node?_enter]
    by_cases hn : node = node' <;> by_cases hi : id = id'
    · simp [hn, hi]
    · -- The identifier of a new node is no other one.
      subst hn
      rw [if_pos rfl, if_neg hi, ← h.inverse, hget]
      simp [hi]
    · -- A new identifier has no other node.
      subst hi
      rw [if_neg hn, if_pos rfl, h.inverse, hid]
      simp [hn]
    · rw [if_neg hn, if_neg hi, h.inverse]
  mem_order node' := by
    rw [contains_iff, get?_enter]
    show node' ∈ m.order ++ [node] ↔ _
    by_cases hn : node = node'
    · simp [hn]
    · rw [if_neg hn, ← contains_iff, ← h.mem_order]
      simp [Ne.symm hn]
  nodup_order := by
    show (m.order ++ [node]).Nodup
    rw [List.nodup_append']
    exact ⟨h.nodup_order, List.nodup_singleton node, List.disjoint_singleton.mpr hnode⟩

theorem mem_entries (h : m.Consistent) : (node, id) ∈ m.entries ↔ m.get? node = some id := by
  rw [entries, List.mem_filterMap]
  constructor
  · rintro ⟨other, -, hother⟩
    obtain ⟨id', hget, heq⟩ := Option.map_eq_some_iff.mp hother
    cases heq
    exact hget
  · intro hget
    refine ⟨node, (h.mem_order node).mpr (contains_iff.mpr ⟨id, hget⟩), ?_⟩
    exact Option.map_eq_some_iff.mpr ⟨id, hget, rfl⟩

/-- The list of nodes and the list of entries name the same nodes in the same order. -/
theorem map_fst_entries (h : m.Consistent) : m.entries.map Prod.fst = m.order := by
  have hall : ∀ node ∈ m.order, ((m.ids.get? node).map fun id => (node, id)).map Prod.fst =
      some node := by
    intro node hnode
    obtain ⟨id, hget⟩ := contains_iff.mp ((h.mem_order node).mp hnode)
    rw [← get?, hget]
    rfl
  rw [entries, List.map_filterMap, List.filterMap_congr hall, List.filterMap_some]

theorem nodup_nodes (h : m.Consistent) : (m.entries.map Prod.fst).Nodup :=
  h.map_fst_entries ▸ h.nodup_order

theorem size_eq (h : m.Consistent) : m.size = m.entries.length := by
  rw [size, ← h.map_fst_entries, List.length_map]

/-- Entries with the same identifier have the same node. -/
theorem nodup_used (h : m.Consistent) : m.used.Nodup := by
  refine List.Nodup.map_on ?_ (List.Nodup.of_map _ h.nodup_nodes)
  rintro ⟨node, id⟩ hentry ⟨other, _⟩ hother rfl
  have hnode := (h.inverse _ _).mp (h.mem_entries.mp hentry)
  rw [(h.inverse _ _).mp (h.mem_entries.mp hother)] at hnode
  rw [Option.some.inj hnode]

theorem mem_used (h : m.Consistent) : id ∈ m.used ↔ (m.node? id).isSome = true := by
  rw [used, List.mem_map, Option.isSome_iff_exists]
  constructor
  · rintro ⟨⟨node, _⟩, hentry, rfl⟩
    exact ⟨node, (h.inverse _ _).mp (h.mem_entries.mp hentry)⟩
  · rintro ⟨node, hnode⟩
    exact ⟨(node, id), h.mem_entries.mpr ((h.inverse _ _).mpr hnode), rfl⟩

end Consistent

/-- The naming is what the transcript gives: it goes both ways, it lists every named
node once in the order of the answers, and a node has the identifier that the namer
gave it first. -/
structure Reports (m : Naming) (log : Transcript) : Prop where
  inverse : ∀ node id, m.get? node = some id ↔ m.node? id = some node
  nodup_ids : (m.entries.map Prod.snd).Nodup
  nodup_nodes : (m.entries.map Prod.fst).Nodup
  mem_entries : ∀ node id, (node, id) ∈ m.entries ↔ m.get? node = some id
  in_order : m.entries = log.given
  size_eq : m.size = m.entries.length
  first : ∀ node id, m.get? node = some id ↔
    ∃ before after, log = before ++ (node, some id) :: after ∧
      ∀ other, (node, some other) ∉ before

/-- Parts that agree and list what was given answer as the transcript says. -/
theorem Consistent.reports {log : Transcript} (h : m.Consistent) (hlog : log.AsksOnce)
    (hentries : m.entries = log.given) : m.Reports log where
  inverse := h.inverse
  nodup_ids := h.nodup_used
  nodup_nodes := h.nodup_nodes
  mem_entries _ _ := h.mem_entries
  in_order := hentries
  size_eq := h.size_eq
  first node id := by
    rw [← h.mem_entries, hentries, Transcript.mem_given]
    constructor
    · intro hmem
      obtain ⟨before, after, rfl⟩ := List.append_of_mem hmem
      refine ⟨before, after, rfl, fun other hother => ?_⟩
      exact (List.pairwise_append.mp hlog).2.2 _ hother _ List.mem_cons_self rfl rfl
    · rintro ⟨before, after, rfl, -⟩
      simp

end Naming

/-! ### Interviews -/

variable {σ : Type}

/-- The transcript of a namer along a list of nodes, from one state to another.  Nodes
that have been named are passed; for every other node the namer is asked. -/
inductive Namer.Interview (namer : Namer σ) (f : Forest) :
    List NodeId → List NodeId → σ → Transcript → σ → Prop
  | done {named : List NodeId} {s : σ} : Interview namer f named [] s [] s
  | pass {named nodes : List NodeId} {node : NodeId} {s final : σ} {log : Transcript}
      (h : node ∈ named) (hnext : Interview namer f named nodes s log final) :
      Interview namer f named (node :: nodes) s log final
  | decline {named nodes : List NodeId} {node : NodeId} {s s' final : σ} {log : Transcript}
      (h : node ∉ named) (hask : namer.next f node s = (none, s'))
      (hnext : Interview namer f named nodes s' log final) :
      Interview namer f named (node :: nodes) s ((node, none) :: log) final
  | name {named nodes : List NodeId} {node : NodeId} {id : String} {s s' final : σ}
      {log : Transcript} (h : node ∉ named) (hask : namer.next f node s = (some id, s'))
      (hnext : Interview namer f (named ++ [node]) nodes s' log final) :
      Interview namer f named (node :: nodes) s ((node, some id) :: log) final

namespace Namer

variable {namer : Namer σ} {f : Forest} {named nodes : List NodeId} {s final : σ}
  {log : Transcript}

/-- Every list of nodes can be gone through. -/
theorem exists_interview (namer : Namer σ) (f : Forest) (named nodes : List NodeId) (s : σ) :
    ∃ log final, namer.Interview f named nodes s log final := by
  induction nodes generalizing named s with
  | nil => exact ⟨[], s, .done⟩
  | cons node nodes ih =>
      by_cases h : node ∈ named
      · obtain ⟨log, final, hnext⟩ := ih named s
        exact ⟨log, final, .pass h hnext⟩
      · rcases hask : namer.next f node s with ⟨answer, s'⟩
        cases answer with
        | none =>
            obtain ⟨log, final, hnext⟩ := ih named s'
            exact ⟨_, final, .decline h hask hnext⟩
        | some id =>
            obtain ⟨log, final, hnext⟩ := ih (named ++ [node]) s'
            exact ⟨_, final, .name h hask hnext⟩

namespace Interview

/-- The namer is asked only for nodes that have not been named. -/
theorem not_mem_named (h : namer.Interview f named nodes s log final) :
    ∀ visit ∈ log, visit.1 ∉ named := by
  induction h with
  | done => simp
  | pass _ _ ih => exact ih
  | decline h _ _ ih => exact List.forall_mem_cons.mpr ⟨h, ih⟩
  | name h _ _ ih =>
      refine List.forall_mem_cons.mpr ⟨h, fun visit hvisit hnamed => ?_⟩
      exact ih visit hvisit (List.mem_append_left _ hnamed)

/-- A node that has been named is not asked for again. -/
theorem asksOnce (h : namer.Interview f named nodes s log final) : log.AsksOnce := by
  induction h with
  | done => exact List.Pairwise.nil
  | pass _ _ ih => exact ih
  | decline _ _ _ ih => exact List.pairwise_cons.mpr ⟨by simp, ih⟩
  | @name named nodes node id s s' final log _ _ hnext ih =>
      refine List.pairwise_cons.mpr ⟨fun visit hvisit _ heq => ?_, ih⟩
      exact hnext.not_mem_named visit hvisit (by simp [heq])

end Interview

end Namer

/-! ### The outcome of an assignment -/

namespace Forest

variable {namer : Namer σ} {f : Forest} {m : Naming} {node root : NodeId} {s s' final : σ}
  {id : String} {nodes named : List NodeId} {log : Transcript}

theorem assignId_of_contains (h : m.contains node = true) :
    f.assignId namer m node s = .ok m s := by
  rw [assignId, if_pos h]
  rfl

/-- The answer of the namer decides about a node that has no identifier. -/
theorem assignId_of_not_contains {answer : Option String} (h : ¬ m.contains node = true)
    (hask : namer.next f node s = (answer, s')) :
    f.assignId namer m node s =
      answer.elim (.ok m s') fun id =>
        if (m.node? id).isSome then .error (.repeatedId id (f.label node)) s'
        else .ok (m.enter node id) s' := by
  have hnext : (modifyGet (namer.next f node) : EStateM Error σ (Option String)) s =
      .ok answer s' := by
    have happly : (modifyGet (namer.next f node) : EStateM Error σ (Option String)) s =
        .ok (namer.next f node s).1 (namer.next f node s).2 := rfl
    rw [happly, hask]
  rw [assignId, if_neg h, bind_of_ok _ hnext]
  cases answer with
  | none => rfl
  | some id =>
      rw [Option.elim_some]
      dsimp only
      rw [Naming.insert_eq]
      by_cases hid : (m.node? id).isSome
      · rw [if_pos hid, if_pos hid]
        rfl
      · rw [if_neg hid, if_neg hid]
        rfl

theorem foldlM_assignId_of_ok {m' : Naming} (h : f.assignId namer m node s = .ok m' s') :
    (node :: nodes).foldlM (f.assignId namer) m s = nodes.foldlM (f.assignId namer) m' s' := by
  rw [List.foldlM_cons]
  exact bind_of_ok _ h

theorem foldlM_assignId_of_error {e : Error} (h : f.assignId namer m node s = .error e s') :
    (node :: nodes).foldlM (f.assignId namer) m s = .error e s' := by
  rw [List.foldlM_cons]
  exact bind_of_error _ h

end Forest

namespace Namer.Interview

open Forest

variable {namer : Namer σ} {f : Forest} {m : Naming} {nodes named : List NodeId} {s final : σ}
  {log : Transcript}

/-- **As long as the identifiers are distinct, they are all assigned,** and the parts of
the naming agree at every step. -/
theorem exists_foldlM_eq_ok (h : namer.Interview f named nodes s log final) (hm : m.Consistent)
    (hnamed : m.order = named) (hids : (m.used ++ log.ids).Nodup) :
    ∃ m', nodes.foldlM (f.assignId namer) m s = .ok m' final ∧ m'.Consistent ∧
      m'.entries = m.entries ++ log.given := by
  induction h generalizing m with
  | done => exact ⟨m, rfl, hm, (List.append_nil _).symm⟩
  | pass hmem _ ih =>
      have hnode := (hm.mem_order _).mp (hnamed ▸ hmem)
      rw [foldlM_assignId_of_ok (assignId_of_contains hnode)]
      exact ih hm hnamed hids
  | decline hmem hask _ ih =>
      have hnode := mt (hm.mem_order _).mpr (hnamed ▸ hmem)
      rw [foldlM_assignId_of_ok (assignId_of_not_contains hnode hask)]
      exact ih hm hnamed hids
  | @name named nodes node id s s' final log hmem hask _ ih =>
      have hnode : node ∉ m.order := hnamed ▸ hmem
      have hnew : ¬ (m.node? id).isSome = true :=
        mt hm.mem_used.mpr (not_mem_of_nodup_append hids)
      have hstep := assignId_of_not_contains (mt (hm.mem_order node).mpr hnode) hask
      rw [Option.elim_some, if_neg hnew] at hstep
      have hentries : (m.enter node id).entries = m.entries ++ [(node, id)] :=
        Naming.entries_enter hnode
      obtain ⟨m', hrun, hm', hlisted⟩ := ih
        (hm.enter hnode (Option.not_isSome_iff_eq_none.mp hnew)) (by rw [← hnamed]; rfl)
        (by simpa [Naming.used, hentries] using hids)
      refine ⟨m', ?_, hm', ?_⟩
      · rw [foldlM_assignId_of_ok hstep, hrun]
      · simp [hlisted, hentries]

/-- **The first identifier that is given to a second node ends the assignment.** -/
theorem foldlM_eq_error (h : namer.Interview f named nodes s log final) (hm : m.Consistent)
    (hnamed : m.order = named) {before after : Transcript} {node : NodeId} {id : String}
    (hlog : log = before ++ (node, some id) :: after) (hids : (m.used ++ before.ids).Nodup)
    (hrepeat : id ∈ m.used ++ before.ids) :
    ∃ s', nodes.foldlM (f.assignId namer) m s = .error (.repeatedId id (f.label node)) s' := by
  induction h generalizing m before with
  | done => simp at hlog
  | pass hmem _ ih =>
      have hnode := (hm.mem_order _).mp (hnamed ▸ hmem)
      rw [foldlM_assignId_of_ok (assignId_of_contains hnode)]
      exact ih hm hnamed hlog hids hrepeat
  | decline hmem hask _ ih =>
      have hnode := mt (hm.mem_order _).mpr (hnamed ▸ hmem)
      rw [foldlM_assignId_of_ok (assignId_of_not_contains hnode hask)]
      cases before with
      | nil => simp at hlog
      | cons visit before =>
          obtain ⟨rfl, hrest⟩ := List.cons.inj hlog
          exact ih hm hnamed hrest hids hrepeat
  | @name named nodes node' id' s s' final log hmem hask _ ih =>
      have hnode : node' ∉ m.order := hnamed ▸ hmem
      have hstep := assignId_of_not_contains (mt (hm.mem_order node').mpr hnode) hask
      rw [Option.elim_some] at hstep
      cases before with
      | nil =>
          obtain ⟨heq, -⟩ := List.cons.inj hlog
          obtain ⟨rfl, rfl⟩ : node' = node ∧ id' = id := by simpa using heq
          rw [if_pos (hm.mem_used.mp (by simpa using hrepeat))] at hstep
          exact ⟨s', foldlM_assignId_of_error hstep⟩
      | cons visit before =>
          obtain ⟨rfl, hrest⟩ := List.cons.inj hlog
          have hnew : ¬ (m.node? id').isSome = true :=
            mt hm.mem_used.mpr (not_mem_of_nodup_append hids)
          have hentries : (m.enter node' id').entries = m.entries ++ [(node', id')] :=
            Naming.entries_enter hnode
          rw [if_neg hnew] at hstep
          rw [foldlM_assignId_of_ok hstep]
          exact ih (hm.enter hnode (Option.not_isSome_iff_eq_none.mp hnew))
            (by rw [← hnamed]; rfl) hrest
            (by simpa [Naming.used, hentries] using hids)
            (by simpa [Naming.used, hentries] using hrepeat)

/-- After a successful check, the transcript decides: if it gives distinct identifiers,
they are assigned. -/
theorem exists_assignIds_eq_ok (h : namer.Interview f [] nodes s log final) {root : NodeId}
    {n : Nat} (hcheck : f.checkTree root = .ok n) (hids : log.ids.Nodup) :
    ∃ ids, f.assignIds root nodes namer s = .ok ids final ∧ ids.Consistent ∧
      ids.entries = log.given := by
  rw [assignIds, hcheck]
  exact h.exists_foldlM_eq_ok Naming.consistent_empty rfl hids

/-- If it does not, the first repetition is reported. -/
theorem assignIds_eq_error (h : namer.Interview f [] nodes s log final) {root : NodeId} {n : Nat}
    (hcheck : f.checkTree root = .ok n) (hids : ¬ log.ids.Nodup) :
    ∃ (before : Transcript) (node : NodeId) (id : String) (after : Transcript) (s' : σ),
      log = before ++ (node, some id) :: after ∧ before.ids.Nodup ∧ id ∈ before.ids ∧
        f.assignIds root nodes namer s = .error (.repeatedId id (f.label node)) s' := by
  obtain ⟨before, node, id, after, hsplit, hnodup, hrepeat⟩ :=
    Transcript.exists_first_repeat [] List.nodup_nil hids
  obtain ⟨s', herror⟩ := h.foldlM_eq_error Naming.consistent_empty rfl hsplit hnodup hrepeat
  refine ⟨before, node, id, after, s', hsplit, hnodup, hrepeat, ?_⟩
  rw [assignIds, hcheck]
  exact herror

end Namer.Interview

namespace Forest

/-- **Assignment gives every node at most one identifier and every identifier to at
most one node, whatever the list of nodes and the namer.**  A node that the namer has
named is not asked for again.  If the assignment succeeds, the naming is what the
transcript gives.  It fails exactly if the namer gives a node that has no identifier
one that another node has; the first such visit is reported, and nothing else makes
it fail. -/
theorem assignment_injective {m : Metamodel} {f : Forest} (hf : Reachable m f) {root : NodeId}
    (hroot : (f.get? root).isSome) (nodes : List NodeId) {σ : Type} (namer : Namer σ) (s : σ) :
    ∃ log final, namer.Interview f [] nodes s log final ∧
      (∀ before node id after, log = before ++ (node, some id) :: after →
        ∀ answer, (node, answer) ∉ after) ∧
      (∀ ids s', f.assignIds root nodes namer s = .ok ids s' → ids.Reports log ∧ s' = final) ∧
      ((∃ id label s', f.assignIds root nodes namer s = .error (.repeatedId id label) s') ↔
        ∃ before node id after other, log = before ++ (node, some id) :: after ∧
          (other, some id) ∈ before ∧ other ≠ node) ∧
      ∀ e s', f.assignIds root nodes namer s = .error e s' →
        ∃ before node id after, log = before ++ (node, some id) :: after ∧
          (Transcript.ids before).Nodup ∧ e = .repeatedId id (f.label node) := by
  obtain ⟨log, final, hlog⟩ := namer.exists_interview f [] nodes s
  have hcheck := hf.sound.checkTree_eq hroot
  refine ⟨log, final, hlog, ?_, ?_⟩
  · rintro before node id after rfl
    exact hlog.asksOnce.not_mem_after
  · rw [← hlog.asksOnce.not_nodup_ids_iff]
    by_cases hids : log.ids.Nodup
    · obtain ⟨assigned, hrun, hassigned, hentries⟩ := hlog.exists_assignIds_eq_ok hcheck hids
      refine ⟨fun ids s' hok => ?_, ⟨?_, fun h => absurd hids h⟩, fun e s' herror => ?_⟩
      · rw [hrun] at hok
        cases hok
        exact ⟨hassigned.reports hlog.asksOnce hentries, rfl⟩
      · rintro ⟨id, label, s', herror⟩
        rw [hrun] at herror
        cases herror
      · rw [hrun] at herror
        cases herror
    · obtain ⟨before, node, id, after, s₁, hsplit, hnodup, -, hrun⟩ :=
        hlog.assignIds_eq_error hcheck hids
      refine ⟨fun ids s' hok => ?_, ⟨fun _ => hids, fun _ => ⟨id, _, s₁, hrun⟩⟩,
        fun e s' herror => ?_⟩
      · rw [hrun] at hok
        cases hok
      · rw [hrun] at herror
        cases herror
        exact ⟨before, node, id, after, hsplit, hnodup, rfl⟩

/-- A namer that declines when it is first asked, and knows two identifiers. -/
def hesitantNamer : Namer Nat where
  next _ _ n := (if n = 0 then none else if n = 1 then some "a" else some "b", n + 1)

/-- A list with repetitions and a number that no node has. -/
theorem assignment_injective_hesitant :
    (∃ ids, partForest.assignIds ⟨0⟩ [⟨3⟩, ⟨3⟩, ⟨7⟩, ⟨7⟩] hesitantNamer 0 = .ok ids 3 ∧
      ids.size = 2 ∧ ids.get? ⟨3⟩ = some "a" ∧
      ∀ node id, ids.get? node = some id ↔ ids.node? id = some node) ∧
    ∃ (log : Transcript) (before : Transcript) (node : NodeId) (id : String)
      (after : Transcript) (other : NodeId),
      (∃ final, hesitantNamer.Interview partForest [] [⟨3⟩, ⟨3⟩, ⟨7⟩, ⟨1⟩] 0 log final) ∧
      log = before ++ (node, some id) :: after ∧ (other, some id) ∈ before ∧ other ≠ node := by
  have hreach : Reachable partModel partForest := ⟨_, rfl⟩
  have hroot : (partForest.get? ⟨0⟩).isSome := by decide +kernel
  constructor
  · have hok : partForest.assignIds ⟨0⟩ [⟨3⟩, ⟨3⟩, ⟨7⟩, ⟨7⟩] hesitantNamer 0 =
        .ok (Naming.enter (Naming.enter {} ⟨3⟩ "a") ⟨7⟩ "b") 3 := by rfl
    obtain ⟨log, final, -, -, hreports, -⟩ := assignment_injective hreach hroot
      [⟨3⟩, ⟨3⟩, ⟨7⟩, ⟨7⟩] hesitantNamer 0
    exact ⟨_, hok, rfl, rfl, (hreports _ _ hok).1.inverse⟩
  · have herror : partForest.assignIds ⟨0⟩ [⟨3⟩, ⟨3⟩, ⟨7⟩, ⟨1⟩] hesitantNamer 0 =
        .error (.repeatedId "b" "Part@root.more[0]") 4 := by rfl
    obtain ⟨log, final, hlog, -, -, hclash, -⟩ := assignment_injective hreach hroot
      [⟨3⟩, ⟨3⟩, ⟨7⟩, ⟨1⟩] hesitantNamer 0
    obtain ⟨before, node, id, after, other, hsplit⟩ := hclash.mp ⟨_, _, _, herror⟩
    exact ⟨log, before, node, id, after, other, ⟨final, hlog⟩, hsplit⟩

end Forest

end TypedForest
