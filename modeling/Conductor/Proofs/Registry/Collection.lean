import Conductor.Proofs.Store.Marking
import Conductor.Proofs.Store.Integrity
import Conductor.Registry

namespace Conductor

namespace Slot

variable {slot : Slot} {s : Store} {a : Address}

theorem resident?_eq_some_iff : slot.resident? s = some a ↔ slot.entry = some a ∧ s.Lives a := by
  simp only [resident?, Option.filter_eq_some_iff, Store.Lives]

theorem isDead_iff : slot.isDead s ↔ ∃ a, slot.entry = some a ∧ ¬s.Lives a := by
  cases hentry : slot.entry with
  | none => simp [isDead, hentry]
  | some a =>
    have hresident : slot.resident? s = none ↔ ¬s.Lives a := by
      rw [Option.eq_none_iff_forall_ne_some]
      simp [resident?_eq_some_iff, hentry]
    simp [isDead, hentry, hresident]

theorem not_isDead_of_none (h : slot.entry = none) : ¬slot.isDead s := by simp [isDead, h]

theorem resident?_of_some (h : slot.entry = some a) :
    slot.resident? s = if s.Lives a then some a else none := by
  rw [resident?, h]
  rfl

-- The slot's container lives and the roots reach it.
def Reached (slot : Slot) (s : Store) (roots : List Value) : Prop :=
  ∃ a, slot.entry = some a ∧ s.Lives a ∧ s.Reached roots a

theorem any_resident?_iff {roots : List Value} :
    ((slot.resident? s).any fun a => decide (a ∈ s.reach roots)) = true ↔ slot.Reached s roots := by
  rw [Option.any_eq_true]
  refine exists_congr fun a => ?_
  rw [resident?_eq_some_iff, and_assoc]
  refine and_congr_right fun _ => and_congr_right fun hlives => ?_
  rw [decide_eq_true_iff, Store.mem_reach_iff_of_lives hlives]

instance (roots : List Value) : Decidable (slot.Reached s roots) :=
  decidable_of_iff _ any_resident?_iff

end Slot

namespace Registry

-- Some slot remembers the container.
def Remembers (r : Registry) (a : Address) : Prop := ∃ slot ∈ r.slots, slot.entry = some a

variable {r : Registry} {s : Store} {a : Address}

theorem mem_residents_iff : a ∈ r.residents s ↔ r.Remembers a ∧ s.Lives a := by
  simp only [residents, List.mem_filterMap, Array.mem_toList_iff, Slot.resident?_eq_some_iff,
    Remembers, ← and_assoc, exists_and_right]

theorem get?_eq_some_iff {handle : Handle} {v : Value} :
    r.get? s handle = some v ↔ ∃ slot a, r.slots[handle.index]? = some slot ∧
      slot.generation = handle.generation ∧ slot.entry = some a ∧ s.Lives a ∧ .container a = v := by
  rw [get?]
  cases r.slots[handle.index]? with
  | none => simp
  | some slot =>
    by_cases hgeneration : slot.generation = handle.generation
    · simp [hgeneration, Slot.resident?_eq_some_iff, and_assoc]
    · simp [hgeneration]

theorem get?_of_slot {handle : Handle} {slot : Slot} (h : r.slots[handle.index]? = some slot) :
    r.get? s handle =
      if slot.generation = handle.generation then .container <$> slot.resident? s else none := by
  rw [get?, h]
  rfl

theorem getElem?_recycle (i : Nat) : (r.recycle s).slots[i]? =
    r.slots[i]?.map fun slot => if slot.isDead s then ⟨slot.generation + 1, none⟩ else slot := by
  simp [recycle]

theorem mem_deadSlots_iff {i : Nat} :
    i ∈ r.deadSlots s ↔ ∃ slot, r.slots[i]? = some slot ∧ slot.isDead s := by
  simp only [deadSlots, List.mem_filter, List.mem_range]
  constructor
  · rintro ⟨hi, hdead⟩
    exact ⟨r.slots[i], by simp [hi], by simpa [hi] using hdead⟩
  · rintro ⟨slot, hslot, hdead⟩
    obtain ⟨hi, _⟩ := Array.getElem?_eq_some_iff.mp hslot
    exact ⟨hi, by simp [hslot, hdead]⟩

theorem mem_deadSlots_of_slot {i : Nat} {slot : Slot} (h : r.slots[i]? = some slot) :
    i ∈ r.deadSlots s ↔ slot.isDead s := by
  rw [mem_deadSlots_iff, h]
  simp

section Collecting

variable {roots held : List Value}

-- The registered containers that live and that the roots reach, once for every slot.
def reachable (r : Registry) (s : Store) (roots : List Value) : List Address :=
  (r.residents s).filter fun a => decide (a ∈ s.reach roots)

-- Those that the roots do not reach.
def garbage (r : Registry) (s : Store) (roots : List Value) : List Address :=
  (r.residents s).filter (not ∘ fun a => decide (a ∈ s.reach roots))

-- The store after a collection.
def swept (r : Registry) (s : Store) (roots held : List Value) : Store :=
  (s.emptied (r.garbage s roots)).release (roots ++ held)

theorem collect_eq (r : Registry) (s : Store) (roots held : List Value) :
    r.collect s roots held =
      (⟨(r.reachable s roots).length, (r.garbage s roots).length,
        (r.deadSlots (r.swept s roots held)).length⟩,
      { r.recycle (r.swept s roots held) with sinceCollect := 0 }, r.swept s roots held) := by
  rw [collect, List.partition_eq_filter_filter]
  rfl

theorem mem_garbage_iff :
    a ∈ r.garbage s roots ↔ r.Remembers a ∧ s.Lives a ∧ ¬s.Reached roots a := by
  rw [garbage, List.mem_filter, mem_residents_iff, and_assoc]
  refine and_congr_right fun _ => and_congr_right fun hlives => ?_
  simp [Store.mem_reach_iff_of_lives hlives]

theorem find?_swept_of_reached (h : s.Reached roots a) :
    (r.swept s roots held).find? a = s.find? a := by
  have hagree : ∀ b, s.Reached roots b →
      (s.emptied (r.garbage s roots)).find? b = s.find? b := by
    intro b hb
    have hspared : b ∉ r.garbage s roots := fun hmem => (mem_garbage_iff.mp hmem).2.2 hb
    rw [Store.find?_emptied, if_neg hspared]
  have hreached := (Store.reached_agree hagree a).mpr h
  rw [swept, Store.find?_release_of_reached hreached fun b hb => List.mem_append_left _ hb,
    hagree a h]

theorem find?_of_find?_swept {c : Container} (h : (r.swept s roots held).find? a = some c) :
    s.find? a = some c ∨ a ∈ r.garbage s roots := by
  have hemptied := Store.release_extends _ _ a c h
  rw [Store.find?_emptied] at hemptied
  by_cases hgarbage : a ∈ r.garbage s roots
  · exact .inr hgarbage
  · rw [if_neg hgarbage] at hemptied
    exact .inl hemptied

theorem lives_of_lives_swept (h : (r.swept s roots held).Lives a) : s.Lives a := by
  obtain ⟨c, hfind⟩ := Store.lives_iff.mp h
  exact Store.lives_emptied.mp (Store.lives_iff.mpr ⟨c, Store.release_extends _ _ a c hfind⟩)

theorem lives_swept_of_held (hheld : .container a ∈ roots ++ held) (h : s.Lives a) :
    (r.swept s roots held).Lives a := by
  rw [swept, Store.Lives, Store.find?_release_of_held hheld]
  exact Store.lives_emptied.mpr h

theorem intact_swept (h : s.Intact held)
    (hroots : ∀ b, .container b ∈ roots → .container b ∈ held) :
    (r.swept s roots held).Intact held := by
  have hall : (r.swept s roots held).Intact (roots ++ held) :=
    (h.emptied _).release fun b hb => (List.mem_append.mp hb).elim (hroots b) id
  exact ⟨fun a ha => hall.held a (List.mem_append_right _ ha), hall.closed, hall.older⟩

theorem length_reachable_eq : (r.reachable s roots).length =
    r.slots.toList.countP fun slot => slot.Reached s roots := by
  rw [reachable, ← List.countP_eq_length_filter, residents, List.countP_filterMap]
  refine List.countP_congr fun slot _ => ?_
  rw [decide_eq_true_iff, ← Slot.any_resident?_iff]
  cases slot.resident? s <;> rfl

-- A collection ends, and it touches nothing that the roots reach or that was never registered.
theorem collect_preserves (r : Registry) (s : Store) (roots held : List Value) :
    (WellFounded fun next state => s.Marks state next) ∧
    ∃ stats after t, r.collect s roots held = (stats, after, t) ∧
      (∀ a, s.Reached roots a → t.find? a = s.find? a) ∧
      (∀ a c, ¬r.Remembers a → t.find? a = some c → s.find? a = some c) ∧
      (∀ a, .container a ∈ roots ++ held → s.Lives a → t.Lives a) ∧
      (∀ handle a, s.Reached roots a → r.get? s handle = some (.container a) →
        after.get? t handle = some (.container a)) ∧
      stats.live = r.slots.toList.countP (fun slot => slot.Reached s roots) ∧
      ∀ others, (∀ v, v ∈ others ↔ v ∈ roots) → ∀ kept,
        (r.collect s others kept).1.live = stats.live := by
  refine ⟨Store.wellFounded_marks s, _, _, _, collect_eq r s roots held,
    fun a h => find?_swept_of_reached h, ?_, fun a hheld h => lives_swept_of_held hheld h, ?_,
    length_reachable_eq, ?_⟩
  · intro a c hunknown hfind
    refine (find?_of_find?_swept hfind).resolve_right fun hgarbage => ?_
    exact hunknown (mem_garbage_iff.mp hgarbage).1
  · intro handle a hreached hget
    obtain ⟨slot, b, hslot, hgeneration, hentry, hlives, hb⟩ := get?_eq_some_iff.mp hget
    obtain rfl := Value.container.inj hb
    have hstays : (r.swept s roots held).Lives b := by
      rw [Store.Lives, find?_swept_of_reached hreached]
      exact hlives
    have hdead : ¬slot.isDead (r.swept s roots held) := by
      rw [Slot.isDead_iff]
      rintro ⟨c, hc, hgone⟩
      obtain rfl := Option.some.inj (hentry.symm.trans hc)
      exact hgone hstays
    refine get?_eq_some_iff.mpr ⟨slot, b, ?_, hgeneration, hentry, hstays, rfl⟩
    have hrecycled := getElem?_recycle (r := r) (s := r.swept s roots held) handle.index
    rw [hrecycled, hslot, Option.map_some, if_neg hdead]
  · intro others hsame kept
    rw [collect_eq]
    change (r.reachable s others).length = (r.reachable s roots).length
    rw [length_reachable_eq, length_reachable_eq]
    refine List.countP_congr fun slot _ => ?_
    rw [decide_eq_true_iff, decide_eq_true_iff, Slot.Reached]
    simp only [Store.reached_congr hsame, Slot.Reached]

end Collecting

end Registry

end Conductor
