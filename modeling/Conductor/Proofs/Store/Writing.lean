import Conductor.Proofs.Store.Reachability
import Conductor.Store.Access

namespace Conductor

namespace OrderedMap

variable {κ α : Type} [DecidableEq κ] {m : OrderedMap κ α} {key : κ} {value v : α}

theorem mem_values_insert (h : v ∈ (m.insert key value).values) : v = value ∨ v ∈ m.values := by
  obtain ⟨entry, hentry, rfl⟩ := List.mem_map.mp h
  have hmem : ∀ entries : List (κ × α), entry ∈ insertEntry key value entries →
      entry = (key, value) ∨ entry ∈ entries := by
    intro entries
    induction entries with
    | nil => simp [insertEntry]
    | cons first rest ih =>
      intro hfirst
      by_cases hk : first.1 = key
      · rw [insertEntry, if_pos hk] at hfirst
        exact (List.mem_cons.mp hfirst).imp_right (List.mem_cons_of_mem _)
      · rw [insertEntry, if_neg hk] at hfirst
        rcases List.mem_cons.mp hfirst with rfl | hrest
        · exact .inr List.mem_cons_self
        · exact (ih hrest).imp_right (List.mem_cons_of_mem _)
  rcases hmem m.toList hentry with rfl | hold
  · exact .inl rfl
  · exact .inr (List.mem_map.mpr ⟨entry, hold, rfl⟩)

theorem mem_values_erase (h : v ∈ (m.erase key).values) : v ∈ m.values := by
  obtain ⟨entry, hentry, rfl⟩ := List.mem_map.mp h
  exact List.mem_map.mpr ⟨entry, (List.mem_filter.mp hentry).1, rfl⟩

end OrderedMap

namespace MapCell

variable {s : Store} {cell after : MapCell} {key value old : Value}

theorem emplace_eq_ok_iff : cell.emplace s key value = .ok after ↔ ∃ text, s.mapKey key = .ok text ∧
    { cell with entries := cell.entries.insert text value, modified := true } = after := by
  rw [emplace]
  cases s.mapKey key with
  | error e => simp [bind, Except.bind]
  | ok text => simp [bind, Except.bind]

theorem erase_eq_ok_iff {removed : Option Value} : cell.erase s key = .ok (removed, after) ↔
    ∃ text, s.mapKey key = .ok text ∧ cell.entries.get? text = removed ∧
      (if removed.isSome then { cell with entries := cell.entries.erase text, modified := true }
        else cell) = after := by
  rw [erase]
  cases s.mapKey key with
  | error e => simp [bind, Except.bind]
  | ok text =>
    cases hget : cell.entries.get? text <;>
    · simp only [bind, Except.bind, hget, Except.ok.injEq, Prod.mk.injEq, exists_eq_left']
      refine and_congr_right ?_
      rintro rfl
      rfl

theorem assign_eq_ok_iff : cell.assign s key value = .ok (old, after) ↔ ∃ text,
    s.mapKey key = .ok text ∧ cell.entries.get? text = some old ∧
      { cell with entries := cell.entries.insert text value } = after := by
  rw [assign]
  cases s.mapKey key with
  | error e => simp [bind, Except.bind]
  | ok text => cases hget : cell.entries.get? text <;> simp [bind, Except.bind, hget]

end MapCell

namespace ListCell

variable {s : Store} {cell after : ListCell} {key value old : Value}

theorem assign_eq_ok_iff : cell.assign s key value = .ok (old, after) ↔ ∃ i,
    s.position key cell.items.length = .ok i ∧ cell.items.getD i .void = old ∧
      { cell with items := cell.items.set i value } = after := by
  rw [assign]
  cases s.position key cell.items.length with
  | error e => simp [bind, Except.bind]
  | ok i => simp [bind, Except.bind]

theorem set_eq_ok_iff : cell.set s key value = .ok (old, after) ↔ ∃ i,
    s.position key cell.items.length = .ok i ∧ cell.items.getD i .void = old ∧
      { cell with items := cell.items.set i value, modified := true } = after := by
  rw [set, assign]
  cases s.position key cell.items.length with
  | error e => simp [bind, Except.bind]
  | ok i => simp [bind, Except.bind]

end ListCell

namespace Container

-- A container, the values that an operation on it is given to store, and the container afterwards.
-- An operation that fails leaves the container as it is.
inductive Writes (s : Store) : Container → List Value → Container → Prop
  | emplace {cell after : MapCell} {key value : Value} (h : cell.emplace s key value = .ok after) :
      Writes s (.map cell) [value] (.map after)
  | erase {cell after : MapCell} {key : Value} {removed : Option Value}
      (h : cell.erase s key = .ok (removed, after)) : Writes s (.map cell) [] (.map after)
  | assignEntry {cell after : MapCell} {key value old : Value}
      (h : cell.assign s key value = .ok (old, after)) : Writes s (.map cell) [value] (.map after)
  | assignItem {cell after : ListCell} {key value old : Value}
      (h : cell.assign s key value = .ok (old, after)) : Writes s (.list cell) [value] (.list after)
  | set {cell after : ListCell} {key value old : Value}
      (h : cell.set s key value = .ok (old, after)) : Writes s (.list cell) [value] (.list after)
  | append (cell : ListCell) (value : Value) :
      Writes s (.list cell) [value] (.list (cell.append value))
  | pop (cell : ListCell) : Writes s (.list cell) [] (.list cell.pop.2)
  | clear (c : Container) : Writes s c [] c.clear
  | mark (c : Container) (flag : Bool) : Writes s c [] (c.setModified flag)

-- What writing leaves alone.
structure SameKind (c d : Container) : Prop where
  sample : d.sample = c.sample
  object : d.object = c.object
  key : d.key = c.key
  element : d.element = c.element

variable {s : Store} {c after : Container} {given : List Value}

theorem Writes.sameKind (h : Writes s c given after) : c.SameKind after := by
  cases h with
  | emplace h =>
    obtain ⟨_, _, rfl⟩ := MapCell.emplace_eq_ok_iff.mp h
    exact ⟨rfl, rfl, rfl, rfl⟩
  | erase h =>
    obtain ⟨_, _, _, rfl⟩ := MapCell.erase_eq_ok_iff.mp h
    split <;> exact ⟨rfl, rfl, rfl, rfl⟩
  | assignEntry h =>
    obtain ⟨_, _, _, rfl⟩ := MapCell.assign_eq_ok_iff.mp h
    exact ⟨rfl, rfl, rfl, rfl⟩
  | assignItem h =>
    obtain ⟨_, _, _, rfl⟩ := ListCell.assign_eq_ok_iff.mp h
    exact ⟨rfl, rfl, rfl, rfl⟩
  | set h =>
    obtain ⟨_, _, _, rfl⟩ := ListCell.set_eq_ok_iff.mp h
    exact ⟨rfl, rfl, rfl, rfl⟩
  | append cell value => exact ⟨rfl, rfl, rfl, rfl⟩
  | pop cell =>
    rw [ListCell.pop]
    split <;> exact ⟨rfl, rfl, rfl, rfl⟩
  | clear c => cases c <;> exact ⟨rfl, rfl, rfl, rfl⟩
  | mark c flag => cases c <;> exact ⟨rfl, rfl, rfl, rfl⟩

theorem Writes.mem_contents (h : Writes s c given after) {v : Value} (hv : v ∈ after.contents) :
    v ∈ given ∨ v ∈ c.contents := by
  have hset {items : List Value} {i : Nat} {value : Value} (hv : v ∈ items.set i value) :
      v ∈ [value] ∨ v ∈ items :=
    (List.mem_or_eq_of_mem_set hv).symm.imp_left List.mem_singleton.mpr
  have hinsert {m : OrderedMap String Value} {text : String} {value : Value}
      (hv : v ∈ (m.insert text value).values) : v ∈ [value] ∨ v ∈ m.values :=
    (OrderedMap.mem_values_insert hv).imp_left List.mem_singleton.mpr
  cases h with
  | emplace h =>
    obtain ⟨_, _, rfl⟩ := MapCell.emplace_eq_ok_iff.mp h
    exact hinsert hv
  | erase h =>
    obtain ⟨_, _, _, rfl⟩ := MapCell.erase_eq_ok_iff.mp h
    split at hv
    · exact .inr (OrderedMap.mem_values_erase hv)
    · exact .inr hv
  | assignEntry h =>
    obtain ⟨_, _, _, rfl⟩ := MapCell.assign_eq_ok_iff.mp h
    exact hinsert hv
  | assignItem h =>
    obtain ⟨_, _, _, rfl⟩ := ListCell.assign_eq_ok_iff.mp h
    exact hset hv
  | set h =>
    obtain ⟨_, _, _, rfl⟩ := ListCell.set_eq_ok_iff.mp h
    exact hset hv
  | append cell value => exact (List.mem_append.mp hv).symm
  | pop cell =>
    rw [ListCell.pop] at hv
    split at hv
    · exact .inr (List.dropLast_subset _ hv)
    · exact .inr hv
  | clear c => cases c <;> cases hv
  | mark c flag => cases c <;> exact .inr hv

-- What a container holds on to after a write it held on to before or was given.
theorem Writes.mem_references (h : Writes s c given after) {a : Address}
    (ha : a ∈ after.references) : .container a ∈ given ∨ a ∈ c.references := by
  rw [mem_references_iff] at ha ⊢
  rw [h.sameKind.sample] at ha
  rcases ha with hsample | hcontents
  · exact .inr (.inl hsample)
  · exact (h.mem_contents hcontents).imp_right .inr

end Container

end Conductor
