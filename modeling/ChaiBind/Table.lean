/-!
# Tables in insertion order

A table holds one value per key and remembers in which order its keys first
came. Changing the value of a key that is already there leaves its place alone.
`keys_alter` says where the key of a change ends up, `get?_alter` what is then
found under each key.
-/

namespace ChaiBind

/-- Values under distinct keys, in the order of the keys. -/
structure Table (κ α : Type) where
  entries : List (κ × α)
  nodup : (entries.map Prod.fst).Nodup
deriving DecidableEq

namespace Table

variable {κ α β : Type}

/-- The table without entries. -/
def empty : Table κ α := ⟨[], List.nodup_nil⟩

instance : Inhabited (Table κ α) := ⟨empty⟩

/-- The keys in the order in which they first came. -/
def keys (t : Table κ α) : List κ := t.entries.map Prod.fst

/-- The values in the order of their keys. -/
def values (t : Table κ α) : List α := t.entries.map Prod.snd

/-- The number of entries. -/
def size (t : Table κ α) : Nat := t.entries.length

theorem ext_entries {s t : Table κ α} (h : s.entries = t.entries) : s = t := by
  cases s
  cases t
  cases h
  rfl

section Lookup

variable [DecidableEq κ]

/-- The value under a key. -/
def get? (t : Table κ α) (k : κ) : Option α := t.entries.lookup k

/-- Whether there is a value under a key. -/
def contains (t : Table κ α) (k : κ) : Bool := (t.get? k).isSome

/-- Changes the value of a key in place, or adds it at the end. -/
def alterEntries (k : κ) (f : Option α → α) : List (κ × α) → List (κ × α)
  | [] => [(k, f none)]
  | e :: es => if e.1 = k then (e.1, f (some e.2)) :: es else e :: alterEntries k f es

theorem map_fst_alterEntries (k : κ) (f : Option α → α) (es : List (κ × α)) :
    (alterEntries k f es).map Prod.fst =
      if k ∈ es.map Prod.fst then es.map Prod.fst else es.map Prod.fst ++ [k] := by
  induction es with
  | nil => simp [alterEntries]
  | cons e es ih =>
    simp only [alterEntries]
    by_cases h : e.1 = k
    · simp [h]
    · have h' : ¬k = e.1 := fun e => h e.symm
      simp only [h, if_false, List.map_cons, ih, List.mem_cons, h', false_or]
      split <;> rfl

theorem nodup_alterEntries (k : κ) (f : Option α → α) {es : List (κ × α)}
    (h : (es.map Prod.fst).Nodup) : ((alterEntries k f es).map Prod.fst).Nodup := by
  rw [map_fst_alterEntries]
  split
  · exact h
  · rename_i hk
    rw [List.nodup_append]
    refine ⟨h, by simp, fun a ha b hb hab => hk ?_⟩
    rw [← List.mem_singleton.1 hb, ← hab]
    exact ha

/-- The table in which the value of a key has become what `f` makes of its old value. -/
def alter (t : Table κ α) (k : κ) (f : Option α → α) : Table κ α :=
  ⟨alterEntries k f t.entries, nodup_alterEntries k f t.nodup⟩

/-- The table in which a key has a given value. -/
def insert (t : Table κ α) (k : κ) (v : α) : Table κ α := t.alter k fun _ => v

/-- The table in which each entry was inserted in turn. -/
def ofList (es : List (κ × α)) : Table κ α := es.foldl (fun t e => t.insert e.1 e.2) empty

/-- A new key goes to the end; a known one keeps its place. -/
theorem keys_alter (t : Table κ α) (k : κ) (f : Option α → α) :
    (t.alter k f).keys = if k ∈ t.keys then t.keys else t.keys ++ [k] :=
  map_fst_alterEntries k f t.entries

theorem lookup_alterEntries (k : κ) (f : Option α → α) (es : List (κ × α)) (j : κ) :
    (alterEntries k f es).lookup j = if j = k then some (f (es.lookup k)) else es.lookup j := by
  induction es with
  | nil =>
    by_cases h : j = k
    · simp [alterEntries, h]
    · simp [alterEntries, h, List.lookup_cons, beq_eq_false_iff_ne.2 h]
  | cons e es ih =>
    obtain ⟨a, v⟩ := e
    simp only [alterEntries]
    by_cases h : a = k
    · subst h
      by_cases hj : j = a
      · simp [hj]
      · simp [List.lookup_cons, hj, beq_eq_false_iff_ne.2 hj]
    · have hk : (k == a) = false := beq_eq_false_iff_ne.2 fun e => h e.symm
      by_cases hj : j = a
      · subst hj
        simp [h]
      · simp [h, List.lookup_cons, beq_eq_false_iff_ne.2 hj, ih, hk]

theorem contains_iff (t : Table κ α) (k : κ) : t.contains k ↔ k ∈ t.keys := by
  simp only [contains, get?, List.lookup_isSome_iff, keys, List.mem_map, beq_iff_eq]
  exact exists_congr fun e => and_congr_right fun _ => eq_comm

/-- Only the changed key is found with another value. -/
theorem get?_alter (t : Table κ α) (k : κ) (f : Option α → α) (j : κ) :
    (t.alter k f).get? j = if j = k then some (f (t.get? k)) else t.get? j :=
  lookup_alterEntries k f t.entries j

end Lookup

@[simp] theorem get?_empty [DecidableEq κ] (k : κ) : (empty : Table κ α).get? k = none := rfl

@[simp] theorem get?_insert [DecidableEq κ] (t : Table κ α) (k : κ) (v : α) (j : κ) :
    (t.insert k v).get? j = if j = k then some v else t.get? j :=
  get?_alter t k (fun _ => v) j

/-- The table with each value changed by itself. -/
def mapValues (t : Table κ α) (f : κ → α → β) : Table κ β :=
  ⟨t.entries.map fun e => (e.1, f e.1 e.2), by simpa [Function.comp_def] using t.nodup⟩

@[simp] theorem keys_mapValues (t : Table κ α) (f : κ → α → β) :
    (t.mapValues f).keys = t.keys := by
  simp [keys, mapValues]

@[simp] theorem get?_mapValues [DecidableEq κ] (t : Table κ α) (f : κ → α → β) (k : κ) :
    (t.mapValues f).get? k = (t.get? k).map (f k) := by
  simp only [get?, mapValues]
  induction t.entries with
  | nil => rfl
  | cons e es ih =>
    obtain ⟨a, v⟩ := e
    by_cases h : k = a
    · simp [h]
    · simp [List.lookup_cons, beq_eq_false_iff_ne.2 h, ih]

end Table

end ChaiBind
