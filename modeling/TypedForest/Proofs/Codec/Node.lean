import TypedForest.Codec.Node
import TypedForest.Proofs.Forest.Run
import TypedForest.Proofs.Json.Reader
import TypedForest.Proofs.Metamodel.Tables

/-!
# Nodes are read back from their text

The reader of nodes undoes the writer, field by field and slot by slot.  A value is
written under its kind and a slot under the name of its case, so that contents which are
written alike are told apart: raw text from a string, a missing child from a missing list
and from a missing reference, a list that is null from one that is ignored or empty.

Two things are asked of a node.  Its numbers must fit into a machine word, which they do
as long as the forest does not outgrow it.  And none of its values may be a floating-point
number, since reading these rounds once more.

## Main Results

* `Value.restores`, `Slot.restores`, `Node.restores`: what is written and read back.
* `Forest.node_read_back`: the nodes of a forest and their texts, in both layouts.
-/

namespace TypedForest

open Json

/-! ### Cases of a choice -/

namespace Json

theorem variant?_record (name : String) (content : Json) :
    variant? (record [(name, content)]) = some (name, some content) := by
  simp [variant?, record]

theorem unit?_text (s : String) : unit? (text s) = some s := by
  simp [unit?, variant?, text]

theorem record_ne_null (members : List (String × Json)) : record members ≠ null := by
  simp [record, null]

end Json

/-! ### Values -/

namespace Value

variable {v : Value}

/-- The kind and the content of a value are found under their names. -/
theorem ofJsonAt?_record (level : Nat) (tag : String) (content : Option Json) :
    ofJsonAt? level (record (("type", .text tag) :: content.toList.map fun c => ("value", c))) =
      content.elim (if tag = "Null" then some null else none) (ofContent? tag) := by
  rw [record, ofJsonAt?, members?_record]
  cases content <;> simp [member?, unit?_text]

theorem legible_content (h : ∀ x, v ≠ .float x) {j : Json} (hj : v.content = some j) :
    j.Legible := by
  cases v with
  | null => cases hj
  | bool b =>
      cases hj
      exact .atom trivial
  | int i =>
      cases hj
      exact legible_int i.toInt
  | float x => exact absurd rfl (h x)
  | string s | raw s =>
      cases hj
      exact lossless_text.legible s
  | enum enumeration literal =>
      cases hj
      exact legible_record (by simp [lossless_text.legible])

/-- The content of a value is read back under its kind. -/
theorem ofContent?_tag (h : ∀ x, v ≠ .float x) {j : Json} (hj : v.content = some j) :
    ofContent? v.tag j = some v := by
  cases v with
  | null => cases hj
  | bool b =>
      cases hj
      rfl
  | int i =>
      cases hj
      show (int64? (.int i.toInt)).map int = some (int i)
      rw [(restores_int64 i).reads]
      rfl
  | float x => exact absurd rfl (h x)
  | string s =>
      cases hj
      show (Json.text? (Json.text s)).map string = some (string s)
      rw [lossless_text.reads]
      rfl
  | raw s =>
      cases hj
      show (Json.text? (Json.text s)).map raw = some (raw s)
      rw [lossless_text.reads]
      rfl
  | enum enumeration literal =>
      cases hj
      show ((record _).record? ["enumeration", "literal"]).bind _ = _
      simp (disch := simp) only [record?_record]
      simp [lossless_text.required]

theorem restores (h : ∀ x, v ≠ .float x) (level : Nat) :
    Restores (ofJsonAt? level) toJson v where
  legible := by
    refine legible_record (List.forall_mem_cons.mpr ⟨lossless_text.legible _, ?_⟩)
    rw [List.forall_mem_map]
    intro j hj
    exact legible_content h (Option.mem_toList.mp hj)
  reads := by
    rw [toJson, ofJsonAt?_record]
    cases hcontent : v.content with
    | none =>
        cases v with
        | null => rfl
        | _ => cases hcontent
    | some j => exact ofContent?_tag h hcontent

end Value

/-! ### Positions, numbers and references -/

theorem Point.lossless : Lossless Point.ofJson? Point.toJson where
  legible p := legible_record (by simp [legible_int])
  reads p := by
    have hline := restores_natural p.line.toNat_lt
    have hcolumn := restores_natural p.column.toNat_lt
    simp (disch := simp) only [Point.ofJson?, Point.toJson, record?_record]
    simp [hline.required, hcolumn.required]

theorem Position.lossless : Lossless Position.ofJson? Position.toJson where
  legible p := legible_record (by simp [Point.lossless.legible])
  reads p := by
    simp (disch := simp) only [Position.ofJson?, Position.toJson, record?_record]
    simp [Point.lossless.required]

/-- Node numbers that fit into sixty-four bits are read back. -/
theorem NodeId.restores {id : NodeId} (h : id.index < UInt64.size) :
    Restores NodeId.ofJson? NodeId.toJson id where
  legible := legible_int id.index
  reads := by
    show (natural? UInt64.size (.int id.index)).map mk = some id
    rw [(restores_natural h).reads]
    rfl

theorem NodeId.restores_option {o : Option NodeId} (h : ∀ id ∈ o, id.index < UInt64.size) :
    Restores (option? NodeId.ofJson?) (option NodeId.toJson) o :=
  .option (by simp [toJson, Json.int, Json.null]) fun id hid => NodeId.restores (h id hid)

theorem NamedRef.restores {r : NamedRef} (h : ∀ t ∈ r.target, t.index < UInt64.size) :
    Restores NamedRef.ofJson? NamedRef.toJson r where
  legible := legible_record (by
    simp [lossless_text.legible, (NodeId.restores_option h).legible])
  reads := by
    simp (disch := simp) only [NamedRef.ofJson?, NamedRef.toJson, record?_record]
    simp [lossless_text.required, (NodeId.restores_option h).optional]

/-! ### Slots and nodes -/

/-- Slots without floating-point numbers are read back. -/
theorem Slot.restores {s : Slot} (hfloat : ∀ x, s ≠ .value (.float x))
    (howned : ∀ c ∈ s.owned, c.index < UInt64.size)
    (htarget : ∀ t ∈ s.target?, t.index < UInt64.size) (level : Nat) :
    Restores (Slot.ofJsonAt? level) Slot.toJson s := by
  cases s with
  | value v =>
      have hv := Value.restores (v := v) (fun x hx => hfloat x (hx ▸ rfl)) (level + 1)
      refine ⟨legible_record (by simp [hv.legible]), ?_⟩
      rw [toJson, ofJsonAt?, variant?_record]
      simp [hv.reads]
  | child c =>
      have hc : Restores (option? NodeId.ofJson?) (option NodeId.toJson) c := by
        refine NodeId.restores_option fun d hd => howned d ?_
        simp [owned, Option.mem_def.mp hd]
      refine ⟨legible_record (by simp [hc.legible]), ?_⟩
      rw [toJson, ofJsonAt?, variant?_record]
      simp [hc.reads]
  | children cs =>
      have hcs : Restores (option? (list? NodeId.ofJson?)) (option (list NodeId.toJson)) cs := by
        refine .option (by simp [list, null]) fun l hl => .list fun d hd => ?_
        refine NodeId.restores (howned d ?_)
        simpa [owned, Option.mem_def.mp hl] using hd
      refine ⟨legible_record (by simp [hcs.legible]), ?_⟩
      rw [toJson, ofJsonAt?, variant?_record]
      simp [hcs.reads]
  | ignored =>
      refine ⟨lossless_text.legible _, ?_⟩
      rw [toJson, ofJsonAt?, unit?_text]
      simp [variant?, text]
  | reference r =>
      have hr : Restores (option? NamedRef.ofJson?) (option NamedRef.toJson) r := by
        refine .option (fun q => record_ne_null _) fun q hq => NamedRef.restores fun t ht => ?_
        refine htarget t ?_
        simpa [target?, Option.mem_def.mp hq] using ht
      refine ⟨legible_record (by simp [hr.legible]), ?_⟩
      rw [toJson, ofJsonAt?, variant?_record]
      simp [hr.reads]

/-- **Nodes without floating-point numbers are read back**, provided that the numbers of
nodes in them fit into sixty-four bits. -/
theorem Node.restores {n : Node} (hid : n.id.index < UInt64.size)
    (hparent : ∀ p ∈ n.parent, p.index < UInt64.size)
    (hslots : ∀ s ∈ n.slots, Restores (Slot.ofJsonAt? 2) Slot.toJson s) :
    Restores Node.ofJson? Node.toJson n := by
  have hposition : Restores (option? Position.ofJson?) (option Position.toJson) n.position :=
    .option (fun p => record_ne_null _) fun p _ => Position.lossless.restores p
  have hparent := NodeId.restores_option hparent
  have hid := NodeId.restores hid
  have hslots := Restores.list hslots
  constructor
  · exact legible_record (by
      simp [hid.legible, lossless_text.legible, hposition.legible, hparent.legible,
        hslots.legible])
  · simp (disch := simp) only [Node.ofJson?, Node.toJson, record?_record]
    simp [hid.required, lossless_text.required, hposition.optional, hparent.optional,
      hslots.required]

namespace Forest

variable {f : Forest} {i : NodeId} {n : Node}

/-- Whoever a node of a well-formed forest mentions is a node of the forest. -/
theorem Sound.restores_node (hf : f.Sound) (hwords : f.size ≤ UInt64.size)
    (hn : f.get? i = some n) (hfloat : ∀ x, .value (.float x) ∉ n.slots) :
    Restores Node.ofJson? Node.toJson n := by
  have hfits : ∀ {c : NodeId}, (f.get? c).isSome → c.index < UInt64.size := fun hc =>
    Nat.lt_of_lt_of_le ((f.get?_isSome_iff _).mp hc) hwords
  have hid : n.id.index < UInt64.size := by
    rw [hf.wellFormed.id_eq hn]
    exact hfits (Option.isSome_of_eq_some hn)
  refine Node.restores hid ?_ ?_
  · intro p hp
    have hparent : f.parent? i = some p := (parent?_of_get? hn).trans hp
    exact hfits (hf.wellFormed.parent_iff.mp hparent).isSome_owner
  · intro s hs
    obtain ⟨j, hj⟩ := List.mem_iff_getElem?.mp hs
    refine Slot.restores (fun x hx => hfloat x (hx ▸ hs)) ?_ ?_ 2
    · intro c hc
      exact hfits (hf.wellFormed.isSome_of_owns ⟨n, hn, Node.mem_owned.mpr ⟨j, s, hj, hc⟩⟩)
    · intro t ht
      exact hfits (hf.wellFormed.target_mem hn hj ht)

/-- **The nodes of a forest are read back from their texts.**  In every forest that edits
lead to, with no more nodes than a machine word can number: a node none of whose attributes
holds a floating-point number is read back from its text in either layout, the same in
every field. -/
theorem node_read_back {m : Metamodel} (hf : Reachable m f) (hwords : f.size ≤ UInt64.size)
    (hn : f.get? i = some n) (hfloat : ∀ x, .value (.float x) ∉ n.slots) (style : Style) :
    (read? (n.toJson.write style)).bind Node.ofJson? = some n :=
  (hf.sound.restores_node hwords hn hfloat).read?_write style

/-- Forms have attributes, children and references that are easily mistaken for each
other. -/
def formModel : Metamodel :=
  Metamodel.grow
    [.type { name := "Form", properties :=
       [{ name := "empty", kind := .value }, { name := "text", kind := .value },
        { name := "raw", kind := .value }, { name := "literal", kind := .value },
        { name := "least", kind := .value }, { name := "child", kind := .single },
        { name := "null", kind := .multiple }, { name := "ignored", kind := .multiple },
        { name := "none", kind := .multiple }, { name := "some", kind := .multiple },
        { name := "missing", kind := .reference }, { name := "open", kind := .reference },
        { name := "closed", kind := .reference }] }]
    { name := "forms" }

/-- A form in a list of forms, with a list of its own and a reference to itself. -/
def formForest : Forest :=
  run [.create "Form", .create "Form", .create "Form", .append ⟨0⟩ "some" ⟨1⟩,
    .append ⟨1⟩ "some" ⟨2⟩, .setPosition ⟨1⟩ ⟨⟨0, 7⟩, ⟨4294967295, 0⟩⟩,
    .setValue ⟨1⟩ "text" (.string "\"\\\u0000😀"), .setValue ⟨1⟩ "raw" (.raw "\"\\\u0000😀"),
    .setValue ⟨1⟩ "literal" (.enum "null" ""), .setValue ⟨1⟩ "least" (.int Int64.minValue),
    .clear ⟨1⟩ "null", .ignore ⟨1⟩ "ignored", .setReference ⟨1⟩ "open" (some ⟨"null", none⟩),
    .setReference ⟨1⟩ "closed" (some ⟨"null", some ⟨1⟩⟩)] { metamodel := formModel }

/-- The form as it is then. -/
def filledForm : Node where
  id := ⟨1⟩
  type := "Form"
  position := some ⟨⟨0, 7⟩, ⟨4294967295, 0⟩⟩
  parent := some ⟨0⟩
  slots :=
    [.value .null, .value (.string "\"\\\u0000😀"), .value (.raw "\"\\\u0000😀"),
     .value (.enum "null" ""), .value (.int Int64.minValue), .child none, .children none,
     .ignored, .children (some []), .children (some [⟨2⟩]), .reference none,
     .reference (some ⟨"null", none⟩), .reference (some ⟨"null", some ⟨1⟩⟩)]

theorem node_read_back_form :
    formForest.size ≤ UInt64.size ∧ formForest.get? ⟨1⟩ = some filledForm ∧
    (read? (filledForm.toJson.write .compact)).bind Node.ofJson? = some filledForm := by
  have hreach : Reachable formModel formForest := ⟨_, rfl⟩
  have hsize : formForest.size ≤ UInt64.size := by decide +kernel
  have hform : formForest.get? ⟨1⟩ = some filledForm := by decide +kernel
  exact ⟨hsize, hform, node_read_back hreach hsize hform (by simp [filledForm]) .compact⟩

end Forest

end TypedForest
