/-! Tables that remember the order in which their keys arrived. Every key occurs once; replacing
or changing a value keeps its place, and a new key goes to the back.
-/

namespace HeaderChain

/-- Values under different keys, oldest key first. -/
structure KeyedTable (κ α : Type) where
  entries : List (κ × α)
  nodup : (entries.map Prod.fst).Nodup

namespace KeyedTable

variable {κ α : Type}

/-- The table without entries. -/
def empty : KeyedTable κ α :=
  ⟨[], List.nodup_nil⟩

instance : Inhabited (KeyedTable κ α) := ⟨empty⟩

/-- The keys, oldest first. -/
def keys (table : KeyedTable κ α) : List κ :=
  table.entries.map Prod.fst

/-- The number of entries. -/
def size (table : KeyedTable κ α) : Nat :=
  table.entries.length

/-- The oldest entry. -/
def oldest? (table : KeyedTable κ α) : Option (κ × α) :=
  table.entries.head?

/-- The table without its oldest entry. -/
def eraseOldest (table : KeyedTable κ α) : KeyedTable κ α where
  entries := table.entries.tail
  nodup := by rw [List.map_tail]; exact table.nodup.tail

/-- Tables with the same entries in the same order are equal. -/
theorem ext {left right : KeyedTable κ α} (same : left.entries = right.entries)
    : left = right := by
  cases left; cases right; simpa using same

/-- Dropping the oldest entry drops the first key. -/
@[simp] theorem keys_eraseOldest (table : KeyedTable κ α)
    : table.eraseOldest.keys = table.keys.tail := by
  simp [keys, eraseOldest, List.map_tail]

variable [DecidableEq κ]

/-- The value under a key. -/
def get? (table : KeyedTable κ α) (key : κ) : Option α :=
  (table.entries.find? fun entry => entry.1 = key).map Prod.snd

/-- Whether a key has a value. -/
def contains (table : KeyedTable κ α) (key : κ) : Bool :=
  table.entries.any fun entry => entry.1 = key

/-- Changes the value under a key, if there is one, in its place. -/
def modify (table : KeyedTable κ α) (key : κ) (change : α → α) : KeyedTable κ α where
  entries := table.entries.map fun entry =>
    if entry.1 = key then (entry.1, change entry.2) else entry
  nodup := by
    have same : (fun entry : κ × α => (if entry.1 = key then (entry.1, change entry.2)
        else entry).1) = Prod.fst := by
      funext entry
      split <;> rfl
    rw [List.map_map]
    exact (congrArg (fun f => (table.entries.map f).Nodup) same).mpr table.nodup

/-- The table without a key. -/
def erase (table : KeyedTable κ α) (key : κ) : KeyedTable κ α where
  entries := table.entries.filter fun entry => entry.1 ≠ key
  nodup := table.nodup.sublist (List.filter_sublist.map Prod.fst)

/-- A key occurs among the entries exactly when the table contains it. -/
theorem contains_iff {table : KeyedTable κ α} {key : κ}
    : table.contains key = true ↔ key ∈ table.keys := by
  simp [contains, keys]

/-- Puts a value under a key: in the place of the old value, or at the back. -/
def put (table : KeyedTable κ α) (key : κ) (value : α) : KeyedTable κ α :=
  if fresh : table.contains key then table.modify key fun _ => value
  else
    { entries := table.entries ++ [(key, value)]
      nodup := by
        have absent : key ∉ table.keys := fun member => fresh (contains_iff.mpr member)
        simp only [List.map_append, List.map_cons, List.map_nil]
        exact List.nodup_append.mpr ⟨table.nodup, by simp, by
          rintro other member _ (_ | _) rfl
          · exact absent member
          · contradiction⟩ }

/-- A key has no value exactly when it does not occur. -/
theorem get?_eq_none_iff {table : KeyedTable κ α} {key : κ}
    : table.get? key = none ↔ key ∉ table.keys := by
  simp only [get?, Option.map_eq_none_iff, List.find?_eq_none, decide_eq_true_eq, keys,
    List.mem_map, not_exists, not_and]

/-- A key has a value exactly when the table contains it. -/
theorem isSome_get? (table : KeyedTable κ α) (key : κ)
    : (table.get? key).isSome = table.contains key := by
  simp [get?, contains, List.isSome_find?]

/-- Changing a value keeps all keys in their places. -/
@[simp] theorem keys_modify (table : KeyedTable κ α) (key : κ) (change : α → α)
    : (table.modify key change).keys = table.keys := by
  simp only [keys, modify, List.map_map]
  apply List.map_congr_left
  intro entry _
  simp only [Function.comp]
  split <;> rfl

/-- Erasing a key keeps the order of the others. -/
theorem keys_erase (table : KeyedTable κ α) (key : κ)
    : (table.erase key).keys = table.keys.filter (· ≠ key) := by
  simp [keys, erase, List.filter_map, Function.comp_def]

/-- A new key goes to the back. -/
theorem keys_put_of_not_mem {table : KeyedTable κ α} {key : κ} (absent : key ∉ table.keys)
    (value : α)
    : (table.put key value).keys = table.keys ++ [key] := by
  have fresh : ¬ table.contains key = true := fun found => absent (contains_iff.mp found)
  simp [put, fresh, keys]

/-- A table grows when a new key is put. -/
theorem size_put (table : KeyedTable κ α) (key : κ) (value : α)
    : (table.put key value).size
      = if table.contains key then table.size else table.size + 1 := by
  unfold put
  split
  · next found => simp [size, modify]
  · next fresh => simp [size]

/-- A change reaches the value under its own key and no other, by list induction. -/
theorem get?_modify (table : KeyedTable κ α) (key other : κ) (change : α → α)
    : (table.modify key change).get? other
      = if other = key then (table.get? key).map change else table.get? other := by
  obtain ⟨entries, nodup⟩ := table
  simp only [get?, modify]
  clear nodup
  induction entries with
  | nil => simp
  | cons entry rest ih => grind

/-- A key that is put has the value put, and every other key keeps its own. -/
theorem get?_put (table : KeyedTable κ α) (key other : κ) (value : α)
    : (table.put key value).get? other
      = if other = key then some value else table.get? other := by
  unfold put
  split
  · next found =>
      have present : (table.get? key).isSome := by rw [isSome_get?, found]
      obtain ⟨old, under⟩ := Option.isSome_iff_exists.mp present
      simp [get?_modify, under]
  · next fresh =>
      have absent : table.get? key = none :=
        get?_eq_none_iff.mpr fun member => fresh (contains_iff.mpr member)
      simp only [get?, Option.map_eq_none_iff] at absent
      by_cases same : other = key
      · subst same; simp [get?, List.find?_append, absent]
      · have apart : ¬ key = other := fun equal => same equal.symm
        simp [get?, List.find?_append, same, apart]

/-- An erased key has no value, and every other key keeps its own. -/
theorem get?_erase (table : KeyedTable κ α) (key other : κ)
    : (table.erase key).get? other = if other = key then none else table.get? other := by
  obtain ⟨entries, nodup⟩ := table
  simp only [get?, erase]
  clear nodup
  induction entries with
  | nil => simp
  | cons entry rest ih => grind

end KeyedTable

end HeaderChain
