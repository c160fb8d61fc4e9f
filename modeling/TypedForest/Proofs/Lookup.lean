import Mathlib.Data.List.Nodup
import TypedForest.Error

/-!
# Look-ups by key and computations that may fail

The tables of the library are lists that are searched by key.  Where keys are
distinct, a search finds the entry it is meant to find.  Computations that may
fail are taken apart into the parts that succeeded.

## Main Results

* `find?_of_nodup_key`: with distinct keys, an entry is found under its key.
* `findSome?_eq_of_unique`: a search all of whose answers agree.
* `bind_eq_ok`, `mapM_eq_ok`, `foldlM_invariant`: the parts of a success.
* `ask_bind_ask`, `foldlM_ask`: questions one after the other are one question.
-/

namespace TypedForest

/-- With distinct keys, an entry is found under its own key. -/
theorem find?_of_nodup_key {α κ : Type} [BEq κ] [LawfulBEq κ] (key : α → κ) {l : List α}
    (hl : (l.map key).Nodup) {a : α} (ha : a ∈ l) :
    l.find? (fun x => key x == key a) = some a := by
  induction l with
  | nil => cases ha
  | cons b l ih =>
      rw [List.map_cons, List.nodup_cons] at hl
      rcases List.mem_cons.mp ha with rfl | hmem
      · simp
      · have hne : key b ≠ key a := fun h => hl.1 (h ▸ List.mem_map_of_mem hmem)
        rw [List.find?_cons_of_neg (by simpa using hne), ih hl.2 hmem]

/-- If all answers of a search agree, the search gives that answer. -/
theorem findSome?_eq_of_unique {α β : Type} {l : List α} {find : α → Option β} {b : β}
    (hexists : ∃ a ∈ l, find a = some b) (hunique : ∀ a ∈ l, ∀ c, find a = some c → c = b) :
    l.findSome? find = some b := by
  induction l with
  | nil =>
      obtain ⟨a, ha, -⟩ := hexists
      cases ha
  | cons x l ih =>
      rw [List.findSome?_cons]
      cases hx : find x with
      | some c => rw [hunique x List.mem_cons_self c hx]
      | none =>
          refine ih ?_ fun a ha => hunique a (List.mem_cons_of_mem _ ha)
          obtain ⟨a, ha, hab⟩ := hexists
          rcases List.mem_cons.mp ha with rfl | ha
          · rw [hx] at hab
            cases hab
          · exact ⟨a, ha, hab⟩

/-- Searches for the same items end at the same place. -/
theorem findIdx_congr {α : Type} {l : List α} {p q : α → Bool} (h : ∀ a ∈ l, p a = q a) :
    l.findIdx p = l.findIdx q := by
  induction l with
  | nil => rfl
  | cons a l ih =>
      rw [List.findIdx_cons, List.findIdx_cons, h a List.mem_cons_self,
        ih fun b hb => h b (List.mem_cons_of_mem _ hb)]

/-- In a list without repetition, what is ahead does not occur in what is behind. -/
theorem not_mem_of_nodup_append {α : Type} {done rest : List α} {a : α}
    (h : (done ++ a :: rest).Nodup) : a ∉ done :=
  fun hmem => (List.nodup_append.mp h).2.2 a hmem a List.mem_cons_self rfl

/-- Among the items of a list with a property there is a last one. -/
theorem exists_last {α : Type} {l : List α} {motive : α → Prop} (h : ∃ a ∈ l, motive a) :
    ∃ before a after, l = before ++ a :: after ∧ motive a ∧ ∀ b ∈ after, ¬ motive b := by
  induction l with
  | nil =>
      obtain ⟨a, ha, -⟩ := h
      cases ha
  | cons a l ih =>
      by_cases hrest : ∃ b ∈ l, motive b
      · obtain ⟨before, b, after, rfl, hb, hlast⟩ := ih hrest
        exact ⟨a :: before, b, after, rfl, hb, hlast⟩
      · obtain ⟨b, hb, hmotive⟩ := h
        rcases List.mem_cons.mp hb with rfl | hb
        · exact ⟨[], b, l, rfl, hmotive, fun c hc hc' => hrest ⟨c, hc, hc'⟩⟩
        · exact absurd ⟨b, hb, hmotive⟩ hrest

/-- The items of a list with one more at the end. -/
theorem getElem?_concat_eq_some {α : Type} {l : List α} {a b : α} {i : Nat} :
    (l ++ [a])[i]? = some b ↔ l[i]? = some b ∨ i = l.length ∧ b = a := by
  rcases Nat.lt_trichotomy i l.length with hlt | rfl | hgt
  · rw [List.getElem?_append_left hlt]
    exact (or_iff_left fun h => Nat.ne_of_lt hlt h.1).symm
  · simp [eq_comm]
  · rw [List.getElem?_eq_none (by simp; omega), List.getElem?_eq_none (by omega)]
    simp only [reduceCtorEq, false_or, false_iff, not_and]
    omega

/-- The parts of a computation that succeeded. -/
theorem bind_eq_ok {α β : Type} {x : Except Error α} {k : α → Except Error β} {b : β} :
    (x >>= k) = .ok b ↔ ∃ a, x = .ok a ∧ k a = .ok b := by
  cases x with
  | ok a => simp [bind, Except.bind]
  | error e => simp [bind, Except.bind]

/-- What is known of the outcome as far as there is one. -/
theorem exists_of_toOption {α β : Type} {x : Except Error α} {k : α → β} {b : β}
    (h : x.toOption.map k = some b) : ∃ a, x = .ok a ∧ k a = b := by
  cases x with
  | ok a => exact ⟨a, rfl, Option.some.inj h⟩
  | error e => cases h

/-- A list of computations that all succeed. -/
theorem mapM_eq_ok {α β : Type} {act : α → Except Error β} {value : α → β} {l : List α}
    (h : ∀ a ∈ l, act a = .ok (value a)) : l.mapM act = .ok (l.map value) := by
  induction l with
  | nil => rfl
  | cons a l ih =>
      rw [List.mapM_cons, h a List.mem_cons_self,
        ih fun b hb => h b (List.mem_cons_of_mem _ hb)]
      rfl

/-- In a list of computations that succeeded, each of them succeeded. -/
theorem exists_of_mapM_eq_ok {α β : Type} {act : α → Except Error β} {l : List α} {bs : List β}
    (h : l.mapM act = .ok bs) {a : α} (ha : a ∈ l) : ∃ b ∈ bs, act a = .ok b := by
  induction l generalizing bs with
  | nil => cases ha
  | cons c l ih =>
      rw [List.mapM_cons] at h
      obtain ⟨b, hb, h⟩ := bind_eq_ok.mp h
      obtain ⟨cs, hcs, h⟩ := bind_eq_ok.mp h
      obtain rfl := Except.ok.inj h
      rcases List.mem_cons.mp ha with rfl | ha
      · exact ⟨b, List.mem_cons_self, hb⟩
      · obtain ⟨b', hb', hact⟩ := ih hcs ha
        exact ⟨b', List.mem_cons_of_mem _ hb', hact⟩

/-- The results of a list of computations come from its items. -/
theorem exists_of_mem_mapM {α β : Type} {act : α → Except Error β} {l : List α} {bs : List β}
    (h : l.mapM act = .ok bs) {b : β} (hb : b ∈ bs) : ∃ a ∈ l, act a = .ok b := by
  induction l generalizing bs with
  | nil =>
      obtain rfl := Except.ok.inj h
      cases hb
  | cons c l ih =>
      rw [List.mapM_cons] at h
      obtain ⟨d, hd, h⟩ := bind_eq_ok.mp h
      obtain ⟨cs, hcs, h⟩ := bind_eq_ok.mp h
      obtain rfl := Except.ok.inj h
      rcases List.mem_cons.mp hb with rfl | hb
      · exact ⟨c, List.mem_cons_self, hd⟩
      · obtain ⟨a, ha, hab⟩ := ih hcs hb
        exact ⟨a, List.mem_cons_of_mem _ ha, hab⟩

/-- Folds with the same steps have the same outcome. -/
theorem foldlM_congr {α β : Type} {μ : Type → Type} [Monad μ] {step step' : β → α → μ β}
    {l : List α} (h : ∀ a ∈ l, ∀ b, step b a = step' b a) (b : β) :
    l.foldlM step b = l.foldlM step' b := by
  induction l generalizing b with
  | nil => rfl
  | cons a l ih =>
      rw [List.foldlM_cons, List.foldlM_cons, h a List.mem_cons_self]
      exact congrArg _ (funext fun c => ih (fun x hx => h x (List.mem_cons_of_mem _ hx)) c)

/-- Lists of the same computations have the same outcome. -/
theorem mapM_congr {α β : Type} {act act' : α → Except Error β} {l : List α}
    (h : ∀ a ∈ l, act a = act' a) : l.mapM act = l.mapM act' := by
  induction l with
  | nil => rfl
  | cons a l ih =>
      rw [List.mapM_cons, List.mapM_cons, h a List.mem_cons_self,
        ih fun b hb => h b (List.mem_cons_of_mem _ hb)]

/-- What every step of a successful fold keeps, the fold keeps. -/
theorem foldlM_invariant {α β : Type} {step : β → α → Except Error β} {motive : β → Prop}
    {l : List α} (hstep : ∀ a ∈ l, ∀ b b', motive b → step b a = .ok b' → motive b')
    {b b' : β} (hb : motive b) (h : l.foldlM step b = .ok b') : motive b' := by
  induction l generalizing b with
  | nil =>
      obtain rfl := Except.ok.inj h
      exact hb
  | cons a l ih =>
      rw [List.foldlM_cons] at h
      obtain ⟨c, ha, h⟩ := bind_eq_ok.mp h
      refine ih (fun x hx => hstep x (List.mem_cons_of_mem _ hx)) ?_ h
      exact hstep a List.mem_cons_self b c hb ha

/-! ### Programs that may fail -/

section Programs

variable {σ α β : Type} {s s' : σ} {a : α} {e : Error}

/-- The state that a program leaves, whether it succeeds or fails. -/
def outcome : EStateM.Result Error σ α → σ
  | .ok _ s => s
  | .error _ s => s

theorem bind_apply (x : EStateM Error σ α) (k : α → EStateM Error σ β) (s : σ) :
    (x >>= k) s = match x s with
      | .ok a s' => k a s'
      | .error e s' => .error e s' := by
  change EStateM.bind x k s = _
  unfold EStateM.bind
  cases x s <;> rfl

theorem bind_of_ok {x : EStateM Error σ α} (k : α → EStateM Error σ β) (h : x s = .ok a s') :
    (x >>= k) s = k a s' := by
  rw [bind_apply, h]

theorem bind_of_error {x : EStateM Error σ α} (k : α → EStateM Error σ β)
    (h : x s = .error e s') : (x >>= k) s = .error e s' := by
  rw [bind_apply, h]

/-- Two questions, one after the other, are one question. -/
theorem ask_bind_ask (question : σ → Except Error α) (next : α → σ → Except Error β) :
    (ask question >>= fun a => ask (next a)) = ask fun s => question s >>= fun a => next a s := by
  funext s
  cases h : question s with
  | ok a =>
      rw [bind_of_ok _ (ask_of_ok h), ask, ask, h]
      rfl
  | error e =>
      rw [bind_of_error _ (ask_of_error h), ask, h]
      rfl

/-- A loop of questions is one question. -/
theorem foldlM_ask (step : σ → β → α → Except Error β) (l : List α) (b : β) :
    l.foldlM (fun b a => ask fun s => step s b a) b = ask fun s => l.foldlM (step s) b := by
  induction l generalizing b with
  | nil => rfl
  | cons a l ih =>
      simp only [List.foldlM_cons, ih]
      exact ask_bind_ask _ _

end Programs

end TypedForest
