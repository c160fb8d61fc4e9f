/-!
# Dictionaries

A dictionary holds at most one value for each key.  Writing under a key replaces what
was there.  The order of the entries means nothing; where an order matters, a list of
keys is kept beside the dictionary.

## Main Definitions

* `Dictionary`: entries with distinct keys.
* `Dictionary.get?`, `Dictionary.insert`: reading and writing.
* `Dictionary.ofList`: entries written one after the other.
-/

namespace TypedForest

/-- Entries, at most one for each key. -/
structure Dictionary (κ ν : Type) where
  entries : List (κ × ν)
  nodup_keys : (entries.map Prod.fst).Nodup
deriving DecidableEq, Repr

namespace Dictionary

variable {κ ν : Type}

/-- The dictionary without entries. -/
def empty : Dictionary κ ν := ⟨[], .nil⟩

instance : Inhabited (Dictionary κ ν) := ⟨empty⟩

/-- The keys that have a value. -/
def keys (d : Dictionary κ ν) : List κ := d.entries.map Prod.fst

variable [DecidableEq κ]

/-- The value of a key. -/
def get? (d : Dictionary κ ν) (key : κ) : Option ν :=
  (d.entries.find? fun entry => entry.1 == key).map Prod.snd

/-- Does the key have a value? -/
def contains (d : Dictionary κ ν) (key : κ) : Bool := (d.get? key).isSome

/-- The entries of the other keys. -/
def others (d : Dictionary κ ν) (key : κ) : List (κ × ν) :=
  d.entries.filter fun entry => entry.1 != key

theorem nodup_keys_concat (d : Dictionary κ ν) (key : κ) (value : ν) :
    ((d.others key ++ [(key, value)]).map Prod.fst).Nodup := by
  rw [List.map_append, List.nodup_append]
  refine ⟨d.nodup_keys.sublist (List.filter_sublist.map _), by simp, ?_⟩
  intro a ha b hb
  obtain ⟨entry, hentry, rfl⟩ := List.mem_map.mp ha
  obtain rfl : b = key := by simpa using hb
  simpa using (List.mem_filter.mp hentry).2

/-- Write a value under a key. -/
def insert (d : Dictionary κ ν) (key : κ) (value : ν) : Dictionary κ ν :=
  ⟨d.others key ++ [(key, value)], d.nodup_keys_concat key value⟩

/-- The entries of a list, written one after the other. -/
def ofList (entries : List (κ × ν)) : Dictionary κ ν :=
  entries.foldl (fun d entry => d.insert entry.1 entry.2) empty

end Dictionary

end TypedForest
