import Mathlib.Data.List.Perm.Basic
import TypedForest.Dictionary
import TypedForest.Proofs.Lookup

/-!
# Reading and writing dictionaries

A key has the value that was written last, and the entries of a dictionary are what is
read from it, in whatever order they stand.

## Main Results

* `Dictionary.get?_insert`: what is read after writing.
* `Dictionary.mem_entries`: the entries are what is read.
* `Dictionary.get?_ofList`: keys written one after the other.
* `Dictionary.perm_entries_iff`: the order of the entries means nothing.
-/

namespace TypedForest.Dictionary

variable {κ ν : Type} [DecidableEq κ] {d : Dictionary κ ν} {key other : κ} {value : ν}

@[simp] theorem get?_empty (key : κ) : (empty : Dictionary κ ν).get? key = none := rfl

/-- **The entries are what is read.** -/
theorem mem_entries : (key, value) ∈ d.entries ↔ d.get? key = some value := by
  rw [get?, Option.map_eq_some_iff]
  constructor
  · intro hmem
    exact ⟨(key, value), find?_of_nodup_key Prod.fst d.nodup_keys hmem, rfl⟩
  · rintro ⟨⟨found, _⟩, hfound, rfl⟩
    obtain rfl : found = key := by simpa using List.find?_some hfound
    exact List.mem_of_find?_eq_some hfound

theorem mem_keys : key ∈ d.keys ↔ (d.get? key).isSome := by
  simp [keys, get?]

/-- **A key has the value that was written last.** -/
theorem get?_insert (d : Dictionary κ ν) (key other : κ) (value : ν) :
    (d.insert key value).get? other = if key = other then some value else d.get? other := by
  apply Option.ext
  intro found
  rw [← mem_entries]
  show (other, found) ∈ d.others key ++ [(key, value)] ↔ _
  rw [others]
  by_cases h : key = other
  · subst h
    simp [eq_comm]
  · rw [if_neg h, ← mem_entries]
    simp [Ne.symm h]

theorem get?_insert_of_ne (h : key ≠ other) : (d.insert key value).get? other = d.get? other := by
  rw [get?_insert, if_neg h]

/-- Names written one after the other, each with the value that belongs to it. -/
theorem get?_foldl_insert {α : Type} (items : List α) (name : α → κ) (value : κ → ν)
    (d : Dictionary κ ν) (key : κ) :
    ((items.map fun a => (name a, value (name a))).foldl
        (fun d entry => d.insert entry.1 entry.2) d).get? key =
      if key ∈ items.map name then some (value key) else d.get? key := by
  induction items generalizing d with
  | nil => simp
  | cons a items ih =>
      rw [List.map_cons, List.foldl_cons, ih, get?_insert, List.map_cons]
      by_cases hitems : key ∈ items.map name
      · rw [if_pos hitems, if_pos (List.mem_cons_of_mem _ hitems)]
      · by_cases ha : name a = key
        · rw [if_neg hitems, if_pos ha, if_pos (ha ▸ List.mem_cons_self), ha]
        · rw [if_neg hitems, if_neg ha, if_neg]
          rintro (_ | ⟨_, hmem⟩)
          · exact ha rfl
          · exact hitems hmem

theorem get?_ofList {α : Type} (items : List α) (name : α → κ) (value : κ → ν) (key : κ) :
    (ofList (items.map fun a => (name a, value (name a)))).get? key =
      if key ∈ items.map name then some (value key) else none :=
  get?_foldl_insert items name value empty key

/-- **Dictionaries from which the same is read have the same entries.** -/
theorem perm_entries_iff {d d' : Dictionary κ ν} :
    d.entries.Perm d'.entries ↔ ∀ key, d.get? key = d'.get? key := by
  rw [List.perm_ext_iff_of_nodup d.nodup_keys.of_map d'.nodup_keys.of_map]
  constructor
  · intro h key
    apply Option.ext
    intro value
    rw [← mem_entries, ← mem_entries, h]
  · rintro h ⟨key, value⟩
    rw [mem_entries, mem_entries, h]

end TypedForest.Dictionary
