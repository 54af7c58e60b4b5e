import Conductor.OrderedMap
import Mathlib.Data.List.Forall2
import Mathlib.Data.List.Nodup
import Mathlib.Data.List.Perm.Subperm

namespace Conductor.OrderedMap

variable {κ α : Type}

theorem ext_toList {m n : OrderedMap κ α} (h : m.toList = n.toList) : m = n := by
  cases m
  cases n
  cases h
  rfl

section Reading

variable [DecidableEq κ]

theorem lookup_eq_some_iff_mem {entries : List (κ × α)} (hn : (entries.map Prod.fst).Nodup)
    {key : κ} {value : α} : entries.lookup key = some value ↔ (key, value) ∈ entries := by
  induction entries with
  | nil => simp
  | cons entry rest ih =>
    obtain ⟨first, second⟩ := entry
    obtain ⟨hfresh, hrest⟩ := List.nodup_cons.mp hn
    by_cases hk : key = first
    · subst hk
      have hgone : (key, value) ∉ rest := fun hmem =>
        hfresh (List.mem_map.mpr ⟨_, hmem, rfl⟩)
      simp [hgone, eq_comm]
    · have hbeq : (key == first) = false := by simpa using hk
      simp [List.lookup_cons, hbeq, hk, ih hrest]

theorem get?_eq_some_iff {m : OrderedMap κ α} {key : κ} {value : α} :
    m.get? key = some value ↔ (key, value) ∈ m.toList := lookup_eq_some_iff_mem m.nodup

theorem mem_keys_iff {m : OrderedMap κ α} {key : κ} : key ∈ m.keys ↔ (m.get? key).isSome := by
  simp [keys, Option.isSome_iff_exists, get?_eq_some_iff]

theorem mem_keys_of_get? {m : OrderedMap κ α} {key : κ} {value : α} (h : m.get? key = some value) :
    key ∈ m.keys := mem_keys_iff.mpr (Option.isSome_of_eq_some h)

theorem notMem_keys_of_get? {m : OrderedMap κ α} {key : κ} (h : m.get? key = none) :
    key ∉ m.keys := by rw [mem_keys_iff, h]; exact Bool.false_ne_true

theorem get?_eq_of_perm {m n : OrderedMap κ α} (h : m.toList.Perm n.toList) (key : κ) :
    m.get? key = n.get? key := by
  apply Option.ext
  intro value
  rw [get?_eq_some_iff, get?_eq_some_iff, h.mem_iff]

theorem insertEntry_of_notMem {key : κ} {value : α} {entries : List (κ × α)}
    (h : key ∉ entries.map Prod.fst) :
    insertEntry key value entries = entries ++ [(key, value)] := by
  induction entries with
  | nil => rfl
  | cons entry rest ih =>
    simp only [List.map_cons, List.mem_cons, not_or] at h
    rw [insertEntry, if_neg (Ne.symm h.1), ih h.2]
    rfl

theorem keys_insertEntry_of_mem {key : κ} {value : α} {entries : List (κ × α)}
    (h : key ∈ entries.map Prod.fst) :
    (insertEntry key value entries).map Prod.fst = entries.map Prod.fst := by
  induction entries with
  | nil => cases h
  | cons entry rest ih =>
    by_cases hkey : entry.1 = key
    · simp [insertEntry, hkey]
    · have hrest : key ∈ rest.map Prod.fst := (List.mem_cons.mp h).resolve_left (Ne.symm hkey)
      simp [insertEntry, hkey, ih hrest]

-- Writing under a key that is there makes no new entry.
theorem keys_insert_of_mem {m : OrderedMap κ α} {key : κ} {value : α} (h : key ∈ m.keys) :
    (m.insert key value).keys = m.keys :=
  keys_insertEntry_of_mem h

theorem mem_keys_insert (m : OrderedMap κ α) (key : κ) (value : α) :
    key ∈ (m.insert key value).keys :=
  mem_keys_insertEntry.mpr (.inl rfl)

theorem mem_keys_erase {m : OrderedMap κ α} {key other : κ} :
    other ∈ (m.erase key).keys ↔ other ≠ key ∧ other ∈ m.keys := by
  simp [keys, erase, and_comm]

theorem erase_of_notMem {m : OrderedMap κ α} {key : κ} (h : key ∉ m.keys) : m.erase key = m := by
  refine ext_toList (List.filter_eq_self.mpr fun entry hentry => ?_)
  exact bne_iff_ne.mpr fun heq => h (heq ▸ List.mem_map_of_mem hentry)

-- Erasing a key changes no other reading.
theorem get?_erase (m : OrderedMap κ α) (key other : κ) :
    (m.erase key).get? other = if other = key then none else m.get? other := by
  apply Option.ext
  intro value
  by_cases h : other = key
  · simp [get?_eq_some_iff, erase, h]
  · simp [get?_eq_some_iff, erase, h]

theorem toList_foldl_insert {m : OrderedMap κ α} {entries : List (κ × α)}
    (h : ((m.toList ++ entries).map Prod.fst).Nodup) :
    (entries.foldl (fun m entry => m.insert entry.1 entry.2) m).toList = m.toList ++ entries := by
  induction entries generalizing m with
  | nil => simp
  | cons entry rest ih =>
    have hfresh : entry.1 ∉ m.toList.map Prod.fst := by
      rw [List.map_append, List.nodup_append] at h
      exact fun hmem => h.2.2 _ hmem _ (by simp) rfl
    have hinsert : (m.insert entry.1 entry.2).toList = m.toList ++ [entry] :=
      insertEntry_of_notMem hfresh
    rw [List.foldl_cons, ih (by simpa [hinsert] using h), hinsert]
    simp

theorem toList_ofList {entries : List (κ × α)} (h : (entries.map Prod.fst).Nodup) :
    (ofList entries).toList = entries := toList_foldl_insert (m := empty) h

theorem ofList_toList (m : OrderedMap κ α) : ofList m.toList = m :=
  ext_toList (toList_ofList m.nodup)

theorem mem_of_mem_insertEntry {key : κ} {value : α} {entries : List (κ × α)} {entry : κ × α}
    (h : entry ∈ insertEntry key value entries) : entry = (key, value) ∨ entry ∈ entries := by
  induction entries with
  | nil => exact .inl (List.mem_singleton.mp h)
  | cons first rest ih =>
    by_cases hkey : first.1 = key
    · rw [insertEntry, if_pos hkey] at h
      exact (List.mem_cons.mp h).imp_right (List.mem_cons_of_mem first)
    · rw [insertEntry, if_neg hkey] at h
      rcases List.mem_cons.mp h with rfl | hmem
      · exact .inr List.mem_cons_self
      · exact (ih hmem).imp_right (List.mem_cons_of_mem first)

theorem mem_of_mem_foldl_insert {m : OrderedMap κ α} {entries : List (κ × α)} {entry : κ × α}
    (h : entry ∈ (entries.foldl (fun m entry => m.insert entry.1 entry.2) m).toList) :
    entry ∈ m.toList ∨ entry ∈ entries := by
  induction entries generalizing m with
  | nil => exact .inl h
  | cons first rest ih =>
    rcases ih h with hmem | hmem
    · rcases mem_of_mem_insertEntry hmem with rfl | hmem
      · exact .inr List.mem_cons_self
      · exact .inl hmem
    · exact .inr (List.mem_cons_of_mem first hmem)

theorem mem_of_mem_ofList {entries : List (κ × α)} {entry : κ × α}
    (h : entry ∈ (ofList entries).toList) : entry ∈ entries :=
  (mem_of_mem_foldl_insert h).resolve_left List.not_mem_nil

-- Each entry that a map is made of gives it at most one.
theorem subperm_ofList (entries : List (κ × α)) : (ofList entries).toList.Subperm entries :=
  List.subperm_of_subset (List.Nodup.of_map _ (ofList entries).nodup) fun _ => mem_of_mem_ofList

theorem size_ofList_eq_iff {entries : List (κ × α)} :
    (ofList entries).size = entries.length ↔ (entries.map Prod.fst).Nodup := by
  refine ⟨fun hsize => ?_, fun hnodup => congrArg List.length (toList_ofList hnodup)⟩
  have hlength : entries.length ≤ (ofList entries).toList.length := Nat.le_of_eq hsize.symm
  have hperm := (subperm_ofList entries).perm_of_length_le hlength
  exact (hperm.map Prod.fst).nodup_iff.mp (ofList entries).nodup

theorem get?_foldl_insert (m : OrderedMap κ α) (entries : List (κ × α)) (key : κ) :
    (entries.foldl (fun m entry => m.insert entry.1 entry.2) m).get? key =
      (entries.reverse.lookup key).or (m.get? key) := by
  induction entries generalizing m with
  | nil => rfl
  | cons entry rest ih =>
    obtain ⟨first, value⟩ := entry
    rw [List.foldl_cons, ih, get?_insert, List.reverse_cons, List.lookup_append, Option.or_assoc]
    by_cases hkey : key = first
    · simp [hkey]
    · have hbeq : (key == first) = false := beq_false_of_ne hkey
      simp [List.lookup_cons, hbeq, hkey]

-- Of the entries with a key the last one counts.
theorem get?_ofList (entries : List (κ × α)) (key : κ) :
    (ofList entries).get? key = entries.reverse.lookup key := by
  rw [ofList, get?_foldl_insert]
  exact Option.or_none

end Reading

section Relating

variable [DecidableEq κ] {β : Type} {R : α → β → Prop} {es : List (κ × α)} {fs : List (κ × β)}

theorem forall₂_insertEntry {entry : κ × α} {other : κ × β}
    (h : List.Forall₂ (fun e f => e.1 = f.1 ∧ R e.2 f.2) es fs)
    (hentry : entry.1 = other.1 ∧ R entry.2 other.2) :
    List.Forall₂ (fun e f => e.1 = f.1 ∧ R e.2 f.2) (insertEntry entry.1 entry.2 es)
      (insertEntry other.1 other.2 fs) := by
  rw [← hentry.1]
  induction h with
  | nil => exact .cons ⟨rfl, hentry.2⟩ .nil
  | @cons e f _ _ hhead hrest ih =>
    by_cases hkey : e.1 = entry.1
    · rw [insertEntry, insertEntry, if_pos hkey, if_pos (hhead.1 ▸ hkey)]
      exact .cons ⟨rfl, hentry.2⟩ hrest
    · rw [insertEntry, insertEntry, if_neg hkey, if_neg (hhead.1 ▸ hkey)]
      exact .cons hhead ih

-- Entries with equal keys and related values make maps with equal keys and related values.
theorem forall₂_ofList (h : List.Forall₂ (fun e f => e.1 = f.1 ∧ R e.2 f.2) es fs) :
    List.Forall₂ (fun e f => e.1 = f.1 ∧ R e.2 f.2) (ofList es).toList (ofList fs).toList := by
  have hfoldl {m : OrderedMap κ α} {n : OrderedMap κ β}
      (hmn : List.Forall₂ (fun e f => e.1 = f.1 ∧ R e.2 f.2) m.toList n.toList) :
      List.Forall₂ (fun e f => e.1 = f.1 ∧ R e.2 f.2)
        (es.foldl (fun m entry => m.insert entry.1 entry.2) m).toList
        (fs.foldl (fun m entry => m.insert entry.1 entry.2) n).toList := by
    induction h generalizing m n with
    | nil => exact hmn
    | cons hhead _ ih => exact ih (forall₂_insertEntry hmn hhead)
  exact hfoldl .nil

variable {γ : Type} {m : OrderedMap κ α} {n : OrderedMap κ β}

-- The same holds on of maps that are changed or read under one key.
section Entries

variable (key : κ) (h : List.Forall₂ (fun e f => e.1 = f.1 ∧ R e.2 f.2) m.toList n.toList)

include h

theorem forall₂_insert {v : α} {w : β} (hvw : R v w) :
    List.Forall₂ (fun e f => e.1 = f.1 ∧ R e.2 f.2) (m.insert key v).toList
      (n.insert key w).toList :=
  forall₂_insertEntry h
    (show (key, v).1 = (key, w).1 ∧ R (key, v).2 (key, w).2 from ⟨rfl, hvw⟩)

theorem forall₂_erase :
    List.Forall₂ (fun e f => e.1 = f.1 ∧ R e.2 f.2) (m.erase key).toList (n.erase key).toList := by
  simp only [erase]
  generalize m.toList = es, n.toList = fs at h
  induction h with
  | nil => exact .nil
  | cons hhead _ ih =>
    rw [List.filter_cons, List.filter_cons, ← hhead.1]
    split
    · exact .cons hhead ih
    · exact ih

theorem rel_get? : Option.Rel R (m.get? key) (n.get? key) := by
  rw [get?, get?]
  generalize m.toList = es, n.toList = fs at h
  induction h with
  | nil => exact .none
  | cons hhead _ ih =>
    rw [List.lookup_cons, List.lookup_cons, ← hhead.1]
    split
    · exact .some hhead.2
    · exact ih

end Entries

-- Entries by their keys.
theorem map_toList_eq_filterMap (m : OrderedMap κ α) (f : κ → α → γ) :
    m.toList.map (fun entry => f entry.1 entry.2) =
      m.keys.filterMap fun key => (m.get? key).map (f key) := by
  rw [keys, List.filterMap_map, ← List.filterMap_eq_map]
  refine List.filterMap_congr fun entry hentry => ?_
  simp [get?_eq_some_iff.mpr hentry]

theorem isSome_eq_of_rel {x : Option α} {y : Option β} (h : Option.Rel R x y) :
    x.isSome = y.isSome := by
  cases h <;> rfl

theorem map_eq_map_of_rel {f : α → γ} {g : β → γ} {x : Option α} {y : Option β}
    (h : Option.Rel R x y) (hsame : ∀ v ∈ x, ∀ w ∈ y, R v w → f v = g w) : x.map f = y.map g := by
  cases h with
  | none => rfl
  | some hvw => exact congrArg some (hsame _ rfl _ rfl hvw)

-- What two maps that read alike come to entry by entry, but for the order.
theorem map_toList_perm_of_rel {f : κ → α → γ} {g : κ → β → γ}
    (h : ∀ key, Option.Rel R (m.get? key) (n.get? key))
    (hsame : ∀ key, ∀ v ∈ m.get? key, ∀ w ∈ n.get? key, R v w → f key v = g key w) :
    (m.toList.map fun entry => f entry.1 entry.2).Perm
      (n.toList.map fun entry => g entry.1 entry.2) := by
  have hkeys : m.keys.Perm n.keys :=
    (List.perm_ext_iff_of_nodup m.nodup n.nodup).mpr fun key => by
      rw [← keys, ← keys, mem_keys_iff, mem_keys_iff, isSome_eq_of_rel (h key)]
  have hreads (key : κ) : (m.get? key).map (f key) = (n.get? key).map (g key) :=
    map_eq_map_of_rel (h key) (hsame key)
  rw [map_toList_eq_filterMap, map_toList_eq_filterMap]
  simp only [hreads]
  exact hkeys.filterMap _

end Relating

section Order

variable [LE κ] [DecidableLE κ]

theorem toList_sorted_perm (m : OrderedMap κ α) : m.sorted.toList.Perm m.toList :=
  List.mergeSort_perm _ _

theorem get?_sorted [DecidableEq κ] (m : OrderedMap κ α) (key : κ) :
    m.sorted.get? key = m.get? key := get?_eq_of_perm m.toList_sorted_perm key

end Order

end Conductor.OrderedMap
