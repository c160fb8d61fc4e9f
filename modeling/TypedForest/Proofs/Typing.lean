import Mathlib.Data.List.Forall2
import TypedForest.Proofs.Document.Accepted
import TypedForest.Proofs.Value.Wire

/-!
# Slots are typed

The slots of a node are a bare list, and edits write into it at places that they have
looked up by name.  That each slot nevertheless holds what its property declares is a
consequence of soundness, which edits keep.  Here it is spelled out: what the types of
a metamodel say about nodes, about slots and about the values and children in them.
Documents are read by edits, so the same is true of whatever was read.

## Main Definitions

* `Metamodel.Takes`: the values that attributes of a data type hold.
* `Forest.SlotTyped`, `Forest.NodeTyped`: what a property says about a slot, and a type
  about a node.
* `Forest.TypedBy`: every node is typed.

## Main Results

* `Forest.takes_of_checkValue`: what the check of a value decides.
* `Forest.Sound.typedBy`: soundness, as the types put it.
* `Forest.slots_typed`: after every run and every reading, the slots are typed.
-/

namespace TypedForest

/-- The value may be held by attributes of the data type.  In an attribute for an
enumeration it is null or a literal that is registered for this very enumeration. -/
structure Metamodel.Takes (m : Metamodel) (dataType : DataType) (v : Value) : Prop where
  conforms : v.conforms dataType = true
  literal : ∀ name, dataType = .enum name → v ≠ .null →
    ∃ literal literals, v = .enum name literal ∧ m.literals? name = some literals ∧
      literal ∈ literals

namespace Forest

/-- The slot holds what the property declares. -/
structure SlotTyped (f : Forest) (p : Property) (s : Slot) : Prop where
  kind_eq : s.kind = p.kind
  value : ∀ v, s = .value v → f.metamodel.Takes (p.dataType.getD .raw) v
  child : ∀ c ∈ s.owned, ∃ n, f.get? c = some n ∧
    ∀ expected, p.childType = some expected → f.metamodel.assignable n.type expected = true

/-- The node is of the type, which is registered and concrete, and has the slots of its
properties, one for each and in their order. -/
structure NodeTyped (f : Forest) (n : Node) (t : NodeType) : Prop where
  type?_eq : f.metamodel.type? n.type = some t
  concrete : t.isAbstract = false
  slots : List.Forall₂ f.SlotTyped t.effective n.slots

/-- Every node is typed by the metamodel, and a slot that is looked up under a kind is of
this kind. -/
structure TypedBy (f : Forest) (m : Metamodel) : Prop where
  metamodel_eq : f.metamodel = m
  node : ∀ n ∈ f.nodes, ∃ t, f.NodeTyped n t
  slot_kind : ∀ {id : NodeId} {name : String} {kind : Kind} {s : Slot},
    f.slot id name kind = .ok s → s.kind = kind

variable {m : Metamodel} {f : Forest} {p : Property} {s : Slot} {n : Node} {t : NodeType}

/-- A value that passed the check may be held by the attribute. -/
theorem takes_of_checkValue {v : Value} (h : f.checkValue p v = .ok ()) :
    f.metamodel.Takes p.valueType v := by
  have hconforms := conforms_of_checkValue h
  refine ⟨hconforms, fun name hname hnull => ?_⟩
  rw [hname] at hconforms
  cases v with
  | null => exact absurd rfl hnull
  | enum enumeration literal =>
      obtain rfl : enumeration = name := by simpa [Value.conforms] using hconforms
      simp only [checkValue, hname, hconforms, if_true] at h
      cases hliterals : f.metamodel.literals? enumeration with
      | none => simp [hliterals] at h
      | some literals =>
          refine ⟨literal, literals, rfl, rfl, ?_⟩
          simpa [hliterals] using h
  | bool | int | float | string | raw => cases hconforms

theorem Accepts.slotTyped (h : f.Accepts p s) (hexist : ∀ c ∈ s.owned, (f.get? c).isSome) :
    f.SlotTyped p s where
  kind_eq := h.kind_eq
  value := fun v hv => takes_of_checkValue (h.value_ok v hv)
  child := by
    intro c hc
    obtain ⟨n, hn⟩ := Option.isSome_iff_exists.mp (hexist c hc)
    exact ⟨n, hn, h.child_ok c hc n hn⟩

/-- The slots of a node that fits its type are those of the properties, in order. -/
theorem Fits.forall₂_slotTyped (h : f.Fits n t)
    (hexist : ∀ s ∈ n.slots, ∀ c ∈ s.owned, (f.get? c).isSome) :
    List.Forall₂ f.SlotTyped t.effective n.slots := by
  rw [List.forall₂_iff_get]
  refine ⟨h.length_eq.symm, fun i hi hj => ?_⟩
  refine (h.accepts (List.getElem?_eq_getElem hi) (List.getElem?_eq_getElem hj)).slotTyped ?_
  exact hexist _ (List.getElem_mem hj)

/-- **Sound forests are typed by their metamodel.** -/
theorem Sound.typedBy (hf : f.Sound) : f.TypedBy f.metamodel where
  metamodel_eq := rfl
  node := by
    intro n hn
    obtain ⟨i, hi⟩ := List.mem_iff_getElem?.mp hn
    have hget : f.get? ⟨i⟩ = some n := hi
    obtain ⟨t, ht, hconcrete, hfits⟩ := hf.wellTyped hget
    refine ⟨t, Metamodel.type_eq_ok.mp ht, hconcrete, hfits.forall₂_slotTyped ?_⟩
    intro s hs c hc
    exact hf.wellFormed.isSome_of_owns ⟨n, hget, List.mem_flatMap.mpr ⟨s, hs, hc⟩⟩
  slot_kind := by
    intro id name kind s h
    obtain ⟨site, hsite, h⟩ := bind_eq_ok.mp h
    obtain ⟨n, hn, h⟩ := bind_eq_ok.mp h
    obtain ⟨n', s', hat, hkind⟩ := hf.exists_slotAt hsite
    obtain rfl : n' = n := Except.ok.inj (hat.node_eq.symm.trans hn)
    rw [← Except.ok.inj h, hat.slotAt_eq, hkind]

theorem Reachable.typedBy (hf : Reachable m f) : f.TypedBy m :=
  hf.metamodel_eq ▸ hf.sound.typedBy

/-- **Slots are typed.**  Whatever the metamodel is, after every run of commands and
in every forest that was read from a document, each node is of a registered, concrete
type and has one slot for each of its properties, of the kind of the property and with
the values and the children that the property allows. -/
theorem slots_typed (m : Metamodel) :
    (∀ commands, (run commands { metamodel := m }).TypedBy m) ∧
    ∀ {σ : Type} [Schema σ] (schema : σ) (d : Document) (f : Forest) (root : NodeId),
      d.importTree schema m = .ok (f, root) → f.TypedBy m :=
  ⟨fun commands => Reachable.typedBy ⟨commands, rfl⟩,
    fun _ _ _ _ h => (Document.reachable_of_importTree h).typedBy⟩

/-- Circles are shapes and have a color; shapes are members of groups. -/
def shapeModel : Metamodel :=
  Metamodel.grow
    [.enumeration "Color" ["red", "green"],
     .type { name := "Shape", isAbstract := true, properties :=
       [{ name := "color", kind := .value, dataType := some (.enum "Color") }] },
     .type { name := "Circle", supertypes := ["Shape"] },
     .type { name := "Group", properties :=
       [{ name := "members", kind := .multiple, childType := some "Shape" }] }]
    { name := "shapes" }

def shapeLanguage : Language :=
  ((Language.ofMetamodel "shapes" "1" shapeModel).toOption).getD { key := "shapes", version := "1" }

/-- A group with a green circle. -/
def shapeDocument : Document where
  records :=
    let shapes key : Pointer := ⟨some "shapes", some "1", some key⟩
    [{ id := "a", concept := shapes "shapes-Group", children := [⟨shapes "members", ["b"]⟩] },
     { id := "b", concept := shapes "shapes-Circle", parent := some "a"
       properties := [⟨shapes "color", some "green"⟩] }]

theorem slots_typed_shapes :
    (run [.create "Circle", .create "Group", .setValue ⟨0⟩ "color" (.enum "Color" "red"),
      .append ⟨1⟩ "members" ⟨0⟩] { metamodel := shapeModel }).TypedBy shapeModel ∧
    ∃ f root, shapeDocument.importTree shapeLanguage shapeModel = .ok (f, root) ∧
      (f.slot ⟨1⟩ "color" .value).toOption = some (.value (.enum "Color" "green")) ∧
      f.TypedBy shapeModel := by
  have hgreen : (shapeDocument.importTree shapeLanguage shapeModel).toOption.map
      (fun read => (read.1.slot ⟨1⟩ "color" .value).toOption) =
        some (some (.value (.enum "Color" "green"))) := by decide +kernel
  obtain ⟨⟨f, root⟩, h, hslot⟩ := exists_of_toOption hgreen
  exact ⟨(slots_typed shapeModel).1 _, f, root, h, hslot,
    (slots_typed shapeModel).2 shapeLanguage shapeDocument f root h⟩

end Forest

end TypedForest
