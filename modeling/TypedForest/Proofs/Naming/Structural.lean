import TypedForest.Proofs.Naming.Assignment
import TypedForest.Proofs.Path.Identifier

/-!
# Identifiers by path

The structural namer names a node by its path from the root of its tree.  Paths
determine nodes, and the identifier form of a path determines the path, so two
nodes of one tree never get the same identifier.  Assignment along a traversal
therefore goes through, and it names every node that is visited.

## Main Definitions

* `Forest.structuralId`: the identifier of a node.
* `Forest.structuralNames`: the nodes of a list with their identifiers.

## Main Results

* `Sound.structuralId_injective`: one tree, different nodes, different identifiers.
* `Sound.exists_assignIds`: the outcome of an assignment.
* `structural_ids_distinct`: what holds of the identifiers of every forest that
  edits lead to.
-/

namespace TypedForest

/-- What is listed with the names that a function gives is found under these names. -/
theorem Naming.Consistent.get?_of_entries {m : Naming} (h : m.Consistent) {nodes : List NodeId}
    {name : NodeId → String} (hentries : m.entries = nodes.map fun node => (node, name node))
    (node : NodeId) : m.get? node = if node ∈ nodes then some (name node) else none := by
  apply Option.ext
  intro id
  rw [← h.mem_entries, hentries]
  by_cases hnode : node ∈ nodes <;> simp [hnode]

namespace Forest

variable {f : Forest} {space : String}

/-- The identifier that the structural namer gives a node. -/
def structuralId (f : Forest) (space : String) (node : NodeId) : String :=
  Namer.safeText space ++ "-" ++ (f.path node).identifier

/-- Nodes with the identifiers that the structural namer gives them. -/
def structuralNames (f : Forest) (space : String) (nodes : List NodeId) :
    List (NodeId × String) :=
  nodes.map fun node => (node, f.structuralId space node)

theorem next_structural {node : NodeId} (h : (f.get? node).isSome) :
    (Namer.structural space).next f node () = (some (f.structuralId space node), ()) := by
  obtain ⟨n, hn⟩ := Option.isSome_iff_exists.mp h
  simp only [Namer.structural, hn, Option.map_some]
  rfl

/-- Identifiers hold letters, digits, underscores and hyphens only. -/
theorem mem_structuralId {node : NodeId} {c : Char}
    (hc : c ∈ (f.structuralId space node).toList) :
    c.isAlphanum = true ∨ c = '_' ∨ c = '-' := by
  simp only [structuralId, String.toList_append, List.mem_append] at hc
  rcases hc with (hspace | hhyphen) | hpath
  · rw [Namer.safeText, String.toList_ofList] at hspace
    obtain ⟨d, -, rfl⟩ := List.mem_map.mp hspace
    by_cases hd : Namer.isIdChar d
    · rw [if_pos hd]
      simpa [Namer.isIdChar, or_assoc] using hd
    · rw [if_neg hd]
      exact .inr (.inl rfl)
  · exact .inr (.inr (List.mem_singleton.mp hhyphen))
  · exact Path.mem_identifier hpath

/-- **Two nodes of one tree have different identifiers.** -/
theorem Sound.structuralId_injective (hf : f.Sound) (hm : f.metamodel.Built) {a b : NodeId}
    (htop : f.topmost a = f.topmost b)
    (h : f.structuralId space a = f.structuralId space b) : a = b := by
  have hid : (f.path a).identifier = (f.path b).identifier := by
    simpa [structuralId] using h
  exact hf.path_injective hm htop (Path.identifier_injective hid)

/-! ### Assignment along a list -/

/-- The structural namer names nodes that exist and are visited once. -/
theorem interview_structural (space : String) (nodes named : List NodeId)
    (hnodup : (named ++ nodes).Nodup) (hget : ∀ node ∈ nodes, (f.get? node).isSome) :
    (Namer.structural space).Interview f named nodes ()
      (.ofGiven (f.structuralNames space nodes)) () := by
  induction nodes generalizing named with
  | nil => exact .done
  | cons node nodes ih =>
      obtain ⟨hnode, hrest⟩ := List.forall_mem_cons.mp hget
      have hshift : named ++ node :: nodes = (named ++ [node]) ++ nodes := by simp
      exact .name (not_mem_of_nodup_append hnodup) (next_structural hnode)
        (ih (named ++ [node]) (hshift ▸ hnodup) hrest)

/-- The nodes that a traversal lists, whatever the order. -/
theorem Sound.perm_traverse (hf : f.Sound) (order : Traversal) (root : NodeId) :
    (f.preorder root).Perm (f.traverse order root) := by
  cases order with
  | preorder => exact .refl _
  | postorder => exact hf.perm_postorder root

/-- **Assignment along a traversal succeeds and names every node by its path.** -/
theorem Sound.exists_assignIds (hf : f.Sound) (hm : f.metamodel.Built) (space : String)
    (order : Traversal) {root : NodeId} (h : (f.get? root).isSome) :
    ∃ ids, f.assignIds root (f.traverse order root) (.structural space) () = .ok ids () ∧
      ∀ node, ids.get? node =
        if node ∈ f.traverse order root then some (f.structuralId space node) else none := by
  have hperm := hf.perm_traverse order root
  have hnodup : (f.traverse order root).Nodup := hperm.nodup_iff.mp (hf.nodup_preorder root)
  have hget : ∀ node ∈ f.traverse order root, (f.get? node).isSome := fun node hnode =>
    hf.exists_of_mem_preorder (hperm.mem_iff.mpr hnode)
  have htop : ∀ node ∈ f.traverse order root, f.topmost node = f.topmost root :=
    fun node hnode => hf.topmost_of_mem_preorder (hperm.mem_iff.mpr hnode)
  have hids : (Transcript.ofGiven (f.structuralNames space (f.traverse order root))).ids.Nodup := by
    rw [Transcript.ids, Transcript.given_ofGiven, structuralNames, List.map_map]
    refine hnodup.map_on fun a ha b hb heq => ?_
    exact hf.structuralId_injective hm ((htop a ha).trans (htop b hb).symm) heq
  obtain ⟨ids, hrun, hconsistent, hentries⟩ :=
    (interview_structural space _ [] hnodup hget).exists_assignIds_eq_ok (hf.checkTree_eq h) hids
  rw [Transcript.given_ofGiven] at hentries
  exact ⟨ids, hrun, hconsistent.get?_of_entries hentries⟩

/-- **Identifiers by path never collide.**  In every forest that edits lead to,
two nodes with the same topmost ancestor are named differently; assignment along
either traversal of a tree succeeds and gives every visited node its name; and
names hold letters, digits, underscores and hyphens only. -/
theorem structural_ids_distinct {m : Metamodel} (hm : m.Built) {f : Forest}
    (hf : Reachable m f) (space : String) :
    (∀ a b : NodeId, (f.get? a).isSome → (f.get? b).isSome → a ≠ b →
      f.topmost a = f.topmost b →
      ∃ x y, (Namer.structural space).next f a () = (some x, ()) ∧
        (Namer.structural space).next f b () = (some y, ()) ∧ x ≠ y) ∧
    (∀ (order : Traversal) (root : NodeId), (f.get? root).isSome →
      ∃ ids, f.assignIds root (f.traverse order root) (.structural space) () = .ok ids () ∧
        ∀ node ∈ f.traverse order root, ∃ id, ids.get? node = some id ∧
          (Namer.structural space).next f node () = (some id, ())) ∧
    ∀ (node : NodeId) (id : String), (Namer.structural space).next f node () = (some id, ()) →
      ∀ c ∈ id.toList, c.isAlphanum = true ∨ c = '_' ∨ c = '-' := by
  have hsound := hf.sound
  have hbuilt : f.metamodel.Built := hf.metamodel_eq ▸ hm
  refine ⟨?_, ?_, ?_⟩
  · intro a b ha hb hne htop
    exact ⟨_, _, next_structural ha, next_structural hb,
      fun h => hne (hsound.structuralId_injective hbuilt htop h)⟩
  · intro order root hroot
    obtain ⟨ids, hrun, hget⟩ := hsound.exists_assignIds hbuilt space order hroot
    refine ⟨ids, hrun, fun node hnode => ?_⟩
    have hexists := hsound.exists_of_mem_preorder
      ((hsound.perm_traverse order root).mem_iff.mpr hnode)
    refine ⟨f.structuralId space node, ?_, next_structural hexists⟩
    rw [hget, if_pos hnode]
  · intro node id hid c hc
    cases hn : f.get? node with
    | none => simp [Namer.structural, hn] at hid
    | some n =>
        rw [next_structural (by simp [hn])] at hid
        obtain rfl : f.structuralId space node = id := by simpa using hid
        exact mem_structuralId hc

/-- A type with a list `x`, whose first place reads `x_0`, next to a single child of
that name and to a list without a name. -/
def confusable : TypeDeclaration where
  name := "Part"
  properties := [{ name := "x", kind := .multiple }, { name := "x_0", kind := .single },
    { name := "", kind := .multiple }]

def confusableModel : Metamodel := Metamodel.grow [.type confusable] { name := "parts" }

theorem confusableModel_built : confusableModel.Built := (Metamodel.Built.empty "parts").grow _

/-- A part with one part in each of its properties. -/
def confusableForest : Forest :=
  run [.create "Part", .create "Part", .create "Part", .create "Part", .append ⟨0⟩ "x" ⟨1⟩,
    .setChild ⟨0⟩ "x_0" (some ⟨2⟩), .append ⟨0⟩ "" ⟨3⟩] { metamodel := confusableModel }

theorem structural_ids_distinct_confusable :
    (∃ x y, (Namer.structural "").next confusableForest ⟨1⟩ () = (some x, ()) ∧
      (Namer.structural "").next confusableForest ⟨2⟩ () = (some y, ()) ∧ x ≠ y) ∧
    ∃ ids, confusableForest.assignIds ⟨0⟩ (confusableForest.traverse .postorder ⟨0⟩)
        (.structural "") () = .ok ids () ∧
      ∀ node ∈ confusableForest.traverse .postorder ⟨0⟩, ∃ id, ids.get? node = some id ∧
        (Namer.structural "").next confusableForest node () = (some id, ()) := by
  have hreach : Reachable confusableModel confusableForest := ⟨_, rfl⟩
  have h := structural_ids_distinct confusableModel_built hreach ""
  exact ⟨h.1 ⟨1⟩ ⟨2⟩ (by decide) (by decide) (by decide) (by decide),
    h.2.1 .postorder ⟨0⟩ (by decide)⟩

end Forest

end TypedForest
