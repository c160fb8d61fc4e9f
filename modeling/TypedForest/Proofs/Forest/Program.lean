import TypedForest.Proofs.Forest.Run
import TypedForest.Proofs.Metamodel.Tables

/-!
# Programs of edits

Edits are put together to programs.  A program that succeeds has gone through all its
steps, so a predicate that every command keeps is kept by every program of commands,
whatever questions the program asks in between.  A command that fails has done nothing:
some commands change several nodes one after the other, but in a sound forest only the
questions before the first change can fail.

## Main Definitions

* `Edit.Keeps`: a program keeps a predicate whenever it succeeds.

## Main Results

* `Edit.exists_of_bind`, `Edit.exists_of_ask`: the parts of a program that succeeded.
* `Edit.Keeps.bind`, `Edit.Keeps.forM`: programs one after the other.
* `Forest.Reachable.edit`: commands lead from reachable forests to reachable forests.
* `Forest.refused_edit_changes_nothing`: commands that fail leave the forest as it is.
-/

namespace TypedForest

namespace Edit

variable {α β : Type} {f g : Forest}

/-- The parts of a program that succeeded. -/
theorem exists_of_bind {x : Edit α} {k : α → Edit β} {b : β} (h : (x >>= k) f = .ok b g) :
    ∃ a f', x f = .ok a f' ∧ k a f' = .ok b g := by
  rw [bind_apply] at h
  cases hx : x f with
  | ok a f' =>
      rw [hx] at h
      exact ⟨a, f', rfl, h⟩
  | error e f' =>
      rw [hx] at h
      cases h

/-- A question that was answered leaves the forest as it is. -/
theorem exists_of_ask {question : Forest → Except Error α} {a : α}
    (h : ask question f = .ok a g) : question f = .ok a ∧ g = f := by
  unfold ask at h
  split at h
  case h_1 b hb =>
    obtain ⟨rfl, rfl⟩ := EStateM.Result.ok.inj h
    exact ⟨hb, rfl⟩
  case h_2 => cases h

/-- Whenever the program succeeds, it keeps the predicate. -/
def Keeps (motive : Forest → Prop) (x : Edit α) : Prop :=
  ∀ f a g, motive f → x f = .ok a g → motive g

namespace Keeps

variable {motive : Forest → Prop} {x : Edit α} {k : α → Edit β}

theorem bind (hx : Keeps motive x) (hk : ∀ a, Keeps motive (k a)) : Keeps motive (x >>= k) := by
  intro f b g hf h
  obtain ⟨a, f', ha, h⟩ := exists_of_bind h
  exact hk a f' b g (hx f a f' hf ha) h

/-- What follows a question may rely on the answer. -/
theorem ask_bind {question : Forest → Except Error α}
    (hk : ∀ f a, question f = .ok a → Keeps motive (k a)) : Keeps motive (ask question >>= k) := by
  intro f b g hf h
  obtain ⟨a, f', ha, hrest⟩ := exists_of_bind h
  obtain ⟨hanswer, rfl⟩ := exists_of_ask ha
  exact hk f' a hanswer f' b g hf hrest

theorem pure (a : α) : Keeps motive (Pure.pure a : Edit α) := by
  intro f b g hf h
  obtain ⟨-, rfl⟩ := EStateM.Result.ok.inj h
  exact hf

theorem throw (e : Error) : Keeps motive (MonadExcept.throw e : Edit α) := by
  intro f b g _ h
  cases h

theorem forM {act : α → Edit Unit} {l : List α} (h : ∀ a ∈ l, Keeps motive (act a)) :
    Keeps motive (l.forM act) := by
  induction l with
  | nil => exact pure ()
  | cons a l ih =>
      exact (h a List.mem_cons_self).bind fun _ =>
        ih fun b hb => h b (List.mem_cons_of_mem _ hb)

end Keeps

/-- The number and the effect of a node that was created. -/
theorem exists_of_create {type : String} {id : NodeId} (h : create type f = .ok id g) :
    id = ⟨f.size⟩ ∧ ∃ t, f.metamodel.type type = .ok t ∧ t.isAbstract = false ∧
      g = (Effect.created type (t.effective.map fun p => Slot.empty p.kind)).apply f := by
  obtain ⟨t, f', ht, hrest⟩ := exists_of_bind h
  obtain ⟨ht, rfl⟩ := exists_of_ask ht
  cases habstract : t.isAbstract with
  | true =>
      rw [habstract] at hrest
      cases hrest
  | false =>
      rw [create_of_concrete ht habstract] at h
      obtain ⟨rfl, rfl⟩ := EStateM.Result.ok.inj h
      exact ⟨rfl, t, ht, habstract, rfl⟩

end Edit

namespace Forest

variable {m : Metamodel} {f g : Forest}

theorem reachable_empty (m : Metamodel) : Reachable m { metamodel := m } := ⟨[], rfl⟩

theorem Reachable.perform (hf : Reachable m f) (c : Command) : Reachable m (c.perform f) := by
  obtain ⟨commands, rfl⟩ := hf
  exact ⟨commands ++ [c], by simp [run]⟩

/-- Commands lead from reachable forests to reachable forests. -/
theorem Reachable.edit (hf : Reachable m f) {c : Command} {a : Unit}
    (h : c.edit f = .ok a g) : Reachable m g := by
  have hperform := hf.perform c
  rwa [Command.perform, h] at hperform

/-- So does making a node. -/
theorem Reachable.create (hf : Reachable m f) {type : String} {id : NodeId}
    (h : Edit.create type f = .ok id g) : Reachable m g := by
  refine hf.edit (c := .create type) (a := ()) ?_
  rw [Command.edit, bind_of_ok _ h]
  rfl

/-- A command that succeeds has carried out its effect. -/
theorem Sound.edit_eq_ok (hf : f.Sound) {c : Command} {a : Unit} (h : c.edit f = .ok a g) :
    ∃ e, c.effect f = .ok e ∧ g = e.apply f := by
  rw [c.edit_eq hf] at h
  cases heffect : c.effect f with
  | ok e =>
      rw [heffect] at h
      obtain ⟨-, rfl⟩ := EStateM.Result.ok.inj h
      exact ⟨e, rfl, rfl⟩
  | error err =>
      rw [heffect] at h
      cases h

/-- A command whose effect is granted succeeds. -/
theorem Sound.exists_edit_of_effect (hf : f.Sound) {c : Command} {β : Type} {k : Forest → β} {b : β}
    (h : (c.effect f).toOption.map (fun e => k (e.apply f)) = some b) :
    ∃ g, c.edit f = .ok () g ∧ k g = b := by
  obtain ⟨e, he, hb⟩ := exists_of_toOption h
  refine ⟨e.apply f, ?_, hb⟩
  rw [c.edit_eq hf, he]
  rfl

/-! ### Refused commands -/

/-- A command that fails was refused for its effect, and nothing was carried out. -/
theorem Sound.edit_eq_error (hf : f.Sound) {c : Command} {e : Error} (h : c.edit f = .error e g) :
    c.effect f = .error e ∧ g = f := by
  rw [c.edit_eq hf] at h
  cases heffect : c.effect f with
  | ok effect =>
      rw [heffect] at h
      cases h
  | error e' =>
      rw [heffect] at h
      obtain ⟨rfl, rfl⟩ := EStateM.Result.error.inj h
      exact ⟨rfl, rfl⟩

/-- **A refused command changes nothing.**  Whatever run led to the forest and whatever
the arguments of the command are: if it fails, then the forest is the one it was made on,
down to the last slot of every node.  The reason for the failure is there to be seen in
that forest. -/
theorem refused_edit_changes_nothing (hf : Reachable m f) (c : Command) {e : Error}
    (h : c.edit f = .error e g) : g = f ∧ c.effect f = .error e :=
  ⟨(hf.sound.edit_eq_error h).2, (hf.sound.edit_eq_error h).1⟩

/-- Boxes have a label and own a lid and parts.  They are shapes, which is abstract. -/
def boxModel : Metamodel :=
  Metamodel.grow
    [.type { name := "Shape", isAbstract := true },
     .type { name := "Box", supertypes := ["Shape"], properties :=
       [{ name := "label", kind := .value, dataType := some .string },
        { name := "lid", kind := .single, childType := some "Box" },
        { name := "parts", kind := .multiple },
        { name := "link", kind := .reference }] }]
    { name := "boxes" }

/-- A box with a lid and a part that has a lid itself, and a box that is free. -/
def boxForest : Forest :=
  run [.create "Box", .create "Box", .create "Box", .create "Box", .create "Box",
    .setChild ⟨0⟩ "lid" (some ⟨1⟩), .append ⟨0⟩ "parts" ⟨2⟩, .setChild ⟨2⟩ "lid" (some ⟨3⟩)]
    { metamodel := boxModel }

/-- Commands that fail, one for each reason to refuse. -/
def refusals : List Command :=
  [.create "Missing", .create "Shape", .setPosition ⟨9⟩ ⟨⟨1, 0⟩, ⟨1, 0⟩⟩,
   .setValue ⟨0⟩ "label" (.bool true), .setValue ⟨0⟩ "lid" .null, .setChild ⟨2⟩ "lid" (some ⟨0⟩),
   .setChild ⟨2⟩ "lid" (some ⟨1⟩), .setChild ⟨2⟩ "lid" (some ⟨9⟩), .append ⟨3⟩ "parts" ⟨2⟩,
   .append ⟨0⟩ "parts" ⟨2⟩, .clear ⟨0⟩ "lid", .ignore ⟨0⟩ "missing",
   .setReference ⟨0⟩ "link" (some ⟨"far", some ⟨9⟩⟩), .resolve ⟨0⟩ "link" ⟨1⟩,
   .unresolve ⟨9⟩ "link"]

theorem refused_edit_changes_nothing_boxes :
    boxForest.size = 5 ∧ ∀ c ∈ refusals, ∃ e, c.edit boxForest = .error e boxForest := by
  have hreachable : Reachable boxModel boxForest := ⟨_, rfl⟩
  have hrefused : ∀ c ∈ refusals, (c.effect boxForest).toOption = none := by decide +kernel
  refine ⟨by decide +kernel, fun c hc => ?_⟩
  cases h : c.edit boxForest with
  | ok a g =>
      rw [c.edit_eq hreachable.sound] at h
      have hnone := hrefused c hc
      cases heffect : c.effect boxForest with
      | ok effect =>
          rw [heffect] at hnone
          cases hnone
      | error e =>
          rw [heffect] at h
          cases h
  | error e g =>
      obtain ⟨rfl, -⟩ := refused_edit_changes_nothing hreachable c h
      exact ⟨e, rfl⟩

end Forest

end TypedForest
