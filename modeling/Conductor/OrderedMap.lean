namespace Conductor

-- Entries with pairwise distinct keys.
structure OrderedMap (κ α : Type) where
  toList : List (κ × α)
  nodup : (toList.map Prod.fst).Nodup

namespace OrderedMap

variable {κ α β : Type}

def empty : OrderedMap κ α := ⟨[], by simp⟩

instance : Inhabited (OrderedMap κ α) := ⟨empty⟩

def keys (m : OrderedMap κ α) : List κ := m.toList.map Prod.fst

def values (m : OrderedMap κ α) : List α := m.toList.map Prod.snd

def size (m : OrderedMap κ α) : Nat := m.toList.length

def map (f : α → β) (m : OrderedMap κ α) : OrderedMap κ β :=
  ⟨m.toList.map fun entry => (entry.1, f entry.2), by
    have h : (m.toList.map fun entry => (entry.1, f entry.2)).map Prod.fst =
        m.toList.map Prod.fst := by simp [Function.comp_def]
    exact h ▸ m.nodup⟩

-- The same entries in the ascending order of the keys.
def sorted [LE κ] [DecidableLE κ] (m : OrderedMap κ α) : OrderedMap κ α :=
  ⟨m.toList.mergeSort fun a b => decide (a.1 ≤ b.1),
    ((List.mergeSort_perm _ _).map Prod.fst).nodup_iff.mpr m.nodup⟩

variable [DecidableEq κ]

def get? (m : OrderedMap κ α) (key : κ) : Option α := m.toList.lookup key

def contains (m : OrderedMap κ α) (key : κ) : Bool := (m.get? key).isSome

-- Entries with the value of `key` replaced, or put last if the key is new.
def insertEntry (key : κ) (value : α) : List (κ × α) → List (κ × α)
  | [] => [(key, value)]
  | entry :: rest =>
    if entry.1 = key then (key, value) :: rest else entry :: insertEntry key value rest

theorem mem_keys_insertEntry {key other : κ} {value : α} {entries : List (κ × α)} :
    other ∈ (insertEntry key value entries).map Prod.fst ↔
      other = key ∨ other ∈ entries.map Prod.fst := by
  induction entries with
  | nil => simp [insertEntry]
  | cons entry rest ih =>
    by_cases h : entry.1 = key
    · simp [insertEntry, h]
    · simp only [insertEntry, h, ite_false, List.map_cons, List.mem_cons, ih]
      constructor
      · rintro (h | h | h) <;> simp [h]
      · rintro (h | h | h) <;> simp [h]

theorem nodup_insertEntry {key : κ} {value : α} {entries : List (κ × α)}
    (h : (entries.map Prod.fst).Nodup) : ((insertEntry key value entries).map Prod.fst).Nodup := by
  induction entries with
  | nil => simp [insertEntry]
  | cons entry rest ih =>
    obtain ⟨hfresh, hrest⟩ := List.nodup_cons.mp h
    by_cases hk : entry.1 = key
    · subst hk
      simpa [insertEntry] using h
    · simp only [insertEntry, hk, ite_false, List.map_cons, List.nodup_cons]
      refine ⟨fun hmem => ?_, ih hrest⟩
      cases mem_keys_insertEntry.mp hmem with
      | inl heq => exact hk heq
      | inr hmem => exact hfresh hmem

def insert (m : OrderedMap κ α) (key : κ) (value : α) : OrderedMap κ α :=
  ⟨insertEntry key value m.toList, nodup_insertEntry m.nodup⟩

-- The map that results from inserting the entries one after the other.
def ofList (entries : List (κ × α)) : OrderedMap κ α :=
  entries.foldl (fun m entry => m.insert entry.1 entry.2) empty

def erase (m : OrderedMap κ α) (key : κ) : OrderedMap κ α :=
  ⟨m.toList.filter fun entry => entry.1 != key,
    m.nodup.sublist (List.filter_sublist.map Prod.fst)⟩

theorem lookup_insertEntry {key other : κ} {value : α} {entries : List (κ × α)} :
    (insertEntry key value entries).lookup other =
      if other = key then some value else entries.lookup other := by
  induction entries with
  | nil =>
    by_cases h : other = key
    · simp [insertEntry, h]
    · have hne : (other == key) = false := by simpa using h
      simp [insertEntry, List.lookup_cons, hne, h]
  | cons entry rest ih =>
    obtain ⟨first, second⟩ := entry
    by_cases h : first = key
    · subst h
      by_cases ho : other = first
      · simp [insertEntry, ho]
      · have hne : (other == first) = false := by simpa using ho
        simp [insertEntry, List.lookup_cons, hne, ho]
    · by_cases ho : other = first
      · subst ho
        simp [insertEntry, h]
      · have hne : (other == first) = false := by simpa using ho
        simp only [insertEntry, h, ite_false, List.lookup_cons, hne, ih]

-- A key reads what was last written under it.
theorem get?_insert (m : OrderedMap κ α) (key other : κ) (value : α) :
    (m.insert key value).get? other = if other = key then some value else m.get? other :=
  lookup_insertEntry

end OrderedMap

end Conductor
