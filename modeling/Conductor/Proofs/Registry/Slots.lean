import Conductor.Proofs.Registry.Completeness

namespace Conductor

namespace Registry

variable {r after : Registry} {s : Store} {a : Address} {handle : Handle}

theorem new_of_check {settings : RegistrySettings} (h : settings.check = .ok ()) :
    Registry.new settings = .ok { settings } := by
  rw [Registry.new, h]
  rfl

theorem maxSlots_le_of_check {settings : RegistrySettings} (h : settings.check = .ok ()) :
    settings.maxSlots ≤ maxSlotLimit := by
  by_contra hmany
  rw [RegistrySettings.check, if_pos (Nat.lt_of_not_le hmany)] at h
  split at h <;> cases h

-- A registration takes the first free slot, or a new one as long as there may be more. Either way
-- it counts.
theorem register_cases (r : Registry) (a : Address) :
    (∃ index rest generation, r.free = index :: rest ∧
      r.register a = (.ok ⟨index, generation⟩,
        { r with
          slots := r.slots.setIfInBounds index ⟨generation, some a⟩
          free := rest
          sinceCollect := r.sinceCollect + 1 })) ∨
    (r.free = [] ∧ r.slots.size < r.settings.maxSlots ∧
      r.register a = (.ok ⟨r.slots.size, 0⟩,
        { r with slots := r.slots.push ⟨0, some a⟩, sinceCollect := r.sinceCollect + 1 })) ∨
    (r.free = [] ∧ r.settings.maxSlots ≤ r.slots.size ∧
      r.register a = (.error .full, { r with sinceCollect := r.sinceCollect + 1 })) := by
  rw [register]
  cases hfree : r.free with
  | cons index rest => exact .inl ⟨index, rest, _, rfl, rfl⟩
  | nil =>
    by_cases hroom : r.slots.size < r.settings.maxSlots
    · exact .inr (.inl ⟨rfl, hroom, if_pos hroom⟩)
    · exact .inr (.inr ⟨rfl, Nat.le_of_not_lt hroom, if_neg hroom⟩)

theorem register_error_iff : (∃ error, (r.register a).1 = .error error) ↔
    r.free = [] ∧ r.settings.maxSlots ≤ r.slots.size := by
  obtain ⟨index, rest, _, hfree, hregister⟩ | ⟨_, hroom, hregister⟩ | ⟨hfree, hfull, hregister⟩ :=
    r.register_cases a
  · rw [hregister, hfree]
    refine iff_of_false ?_ fun h => List.cons_ne_nil _ _ h.1
    rintro ⟨error, h⟩
    cases h
  · rw [hregister]
    refine iff_of_false ?_ fun h => Nat.not_le_of_lt hroom h.2
    rintro ⟨error, h⟩
    cases h
  · rw [hregister]
    exact iff_of_true ⟨_, rfl⟩ ⟨hfree, hfull⟩

-- Every vacant slot is free, and there are no more slots than allowed.
structure Accounted (r : Registry) : Prop where
  orderly : r.Orderly
  free : ∀ i slot, r.slots[i]? = some slot → slot.entry = none → i ∈ r.free
  size_le : r.slots.size ≤ r.settings.maxSlots

theorem accounted_empty (settings : RegistrySettings) : Accounted { settings } where
  orderly := ⟨List.nodup_nil, fun _ hi => absurd hi List.not_mem_nil⟩
  free i slot hslot := by simp at hslot
  size_le := Nat.zero_le _

theorem Accounted.mem_free_iff (h : r.Accounted) (i : Nat) :
    i ∈ r.free ↔ ∃ slot, r.slots[i]? = some slot ∧ slot.entry = none :=
  ⟨h.orderly.vacant i, fun ⟨slot, hslot, hentry⟩ => h.free i slot hslot hentry⟩

theorem Accounted.register (h : r.Accounted) (hregister : r.register a = (.ok handle, after)) :
    after.Accounted ∧ after.settings = r.settings := by
  obtain ⟨hslots, _⟩ := h.orderly.register_of_ok hregister
  have horderly := h.orderly.register hregister
  -- A vacant slot was there before, and the handle is not for it.
  have hfree : ∀ i slot, after.slots[i]? = some slot → slot.entry = none →
      i ≠ handle.index ∧ i ∈ r.free := by
    intro i slot hslot hentry
    rw [hslots] at hslot
    split at hslot
    · cases hslot
      cases hentry
    · rename_i hother
      exact ⟨hother, h.free i slot hslot hentry⟩
  obtain ⟨index, rest, _, hcons, heq⟩ | ⟨hnil, hroom, heq⟩ | ⟨_, _, heq⟩ := r.register_cases a
  · cases hregister.symm.trans heq
    refine ⟨⟨horderly, fun i slot hslot hentry => ?_, ?_⟩, rfl⟩
    · obtain ⟨hother, hmem⟩ := hfree i slot hslot hentry
      rw [hcons] at hmem
      exact (List.mem_cons.mp hmem).resolve_left hother
    · exact Nat.le_trans (Nat.le_of_eq Array.size_setIfInBounds) h.size_le
  · cases hregister.symm.trans heq
    refine ⟨⟨horderly, fun i slot hslot hentry => (hfree i slot hslot hentry).2, ?_⟩, rfl⟩
    exact Nat.le_trans (Nat.le_of_eq (Array.size_push _)) hroom
  · cases hregister.symm.trans heq

theorem size_le_register (hregister : r.register a = (.ok handle, after)) :
    r.slots.size ≤ after.slots.size := by
  obtain ⟨_, _, _, _, heq⟩ | ⟨_, _, heq⟩ | ⟨_, _, heq⟩ := r.register_cases a
  · cases hregister.symm.trans heq
    exact Nat.le_of_eq Array.size_setIfInBounds.symm
  · cases hregister.symm.trans heq
    rw [Array.size_push]
    exact Nat.le_succ _
  · cases hregister.symm.trans heq

-- The count of registrations takes no part in this.
theorem Accounted.counted (h : r.Accounted) (n : Nat) : Accounted { r with sinceCollect := n } :=
  ⟨⟨h.orderly.nodup, h.orderly.vacant⟩, h.free, h.size_le⟩

theorem Accounted.recycle (h : r.Accounted) (s : Store) : (r.recycle s).Accounted := by
  refine ⟨h.orderly.recycle s, fun i slot hslot hentry => ?_, ?_⟩
  · rw [getElem?_recycle] at hslot
    obtain ⟨before, hbefore, rfl⟩ := Option.map_eq_some_iff.mp hslot
    split at hentry
    · rename_i hdead
      exact List.mem_append_left _
        (List.mem_reverse.mpr ((mem_deadSlots_of_slot hbefore).mpr hdead))
    · exact List.mem_append_right _ (h.free i before hbefore hentry)
  · rw [Registry.recycle, Array.size_map]
    exact h.size_le

section Counting

-- The slots that remember a container, be it gone or not.
def occupied (r : Registry) : Nat := r.slots.toList.countP fun slot => slot.entry.isSome

theorem length_deadSlots :
    (r.deadSlots s).length = r.slots.toList.countP fun slot => slot.isDead s := by
  have hslots : (List.range r.slots.size).map (fun i => r.slots[i]?) = r.slots.toList.map some := by
    apply List.ext_getElem (by simp)
    intro i hi _
    have hsize : i < r.slots.size := by simpa using hi
    simp [hsize]
  have hcount :=
    congrArg (List.countP fun slot => (slot.map fun slot => slot.isDead s).getD false) hslots
  rw [List.countP_map, List.countP_map] at hcount
  rw [deadSlots, ← List.countP_eq_length_filter]
  exact hcount

theorem live_eq_countP : r.live s = r.slots.toList.countP fun slot => (slot.resident? s).isSome :=
  List.length_filterMap_eq_countP

-- A slot that is taken has a container that is gone or one that lives.
theorem occupied_eq (r : Registry) (s : Store) :
    r.occupied = (r.deadSlots s).length + r.live s := by
  rw [length_deadSlots, live_eq_countP, occupied,
    List.countP_eq_countP_filter_add _ _ fun slot => slot.isDead s, List.countP_filter,
    List.countP_filter]
  congr 1 <;> refine List.countP_congr fun slot _ => ?_
  · simp [Slot.isDead]
  · cases hresident : slot.resident? s with
    | none => simp [Slot.isDead, hresident, Option.isSome_iff_ne_none]
    | some a => simp [Slot.isDead, hresident, (Slot.resident?_eq_some_iff.mp hresident).1]

theorem reachable_add_garbage (r : Registry) (s : Store) (roots : List Value) :
    (r.reachable s roots).length + (r.garbage s roots).length = r.live s :=
  (List.length_eq_length_filter_add _).symm

end Counting

-- What is known about a collection: no slot names a container that is gone, and each slot is
-- counted.
theorem collect_accounts {stats : CollectStats} {t : Store} {roots held : List Value}
    (h : r.collect s roots held = (stats, after, t)) :
    (∀ slot ∈ after.slots, ∀ a, slot.entry = some a → t.Lives a) ∧
      stats.live + stats.cleared = r.live s ∧ stats.freed + after.live t = r.occupied := by
  rw [collect_eq] at h
  cases h
  refine ⟨fun slot hslot a hentry => ?_, r.reachable_add_garbage s roots, ?_⟩
  · obtain ⟨i, hi⟩ := Array.mem_iff_getElem?.mp hslot
    have hrecycled := getElem?_recycle (r := r) (s := r.swept s roots held) i
    rw [hrecycled] at hi
    obtain ⟨before, _, rfl⟩ := Option.map_eq_some_iff.mp hi
    split at hentry
    · cases hentry
    · rename_i hdead
      rw [Slot.isDead_iff, not_exists] at hdead
      exact Decidable.byContradiction fun hgone => hdead a ⟨hentry, hgone⟩
  · rw [r.occupied_eq (r.swept s roots held)]
    have hresidents := congrArg List.length (r.residents_recycle (r.swept s roots held))
    exact congrArg (_ + ·) hresidents

end Registry

namespace Host

open Registry

variable {settings : RegistrySettings} {history : List Event} {w next : Host} {event : Event}

-- The registry of a run under the settings, and the handles that it has handed out.
structure Accounts (settings : RegistrySettings) (history : List Event) (w : Host) : Prop where
  accounted : w.registry.Accounted
  settings : w.registry.settings = settings
  issued : ∀ handle a, .issued handle a ∈ history → handle.index < w.registry.slots.size

theorem accounts_start (settings : RegistrySettings) : (start { settings }).Accounts settings [] :=
  ⟨accounted_empty settings, rfl, fun _ _ h => absurd h List.not_mem_nil⟩

theorem Step.accounts (hstep : Step w event next) (h : w.Accounts settings history) :
    next.Accounts settings (event :: history) := by
  obtain ⟨rfl, n, hsame⟩ | ⟨handle, a, rfl, hregister, _⟩ | ⟨rfl, hrecycled⟩ := hstep.registry_cases
  · refine ⟨hsame ▸ h.accounted.counted n, hsame ▸ h.settings, fun handle a hmem => ?_⟩
    rw [hsame]
    exact h.issued handle a ((List.mem_cons.mp hmem).resolve_left fun heq => by cases heq)
  · obtain ⟨haccounted, hsettings⟩ := h.accounted.register hregister
    refine ⟨haccounted, hsettings.trans h.settings, fun other b hmem => ?_⟩
    obtain heq | hold := List.mem_cons.mp hmem
    · cases heq
      have hslot := (h.accounted.orderly.register_of_ok hregister).1 handle.index
      rw [if_pos rfl] at hslot
      exact (Array.getElem?_eq_some_iff.mp hslot).1
    · exact Nat.lt_of_lt_of_le (h.issued other b hold) (size_le_register hregister)
  · have hsize : next.registry.slots.size = w.registry.slots.size := by
      rw [hrecycled]
      exact Array.size_map
    refine ⟨hrecycled ▸ (h.accounted.recycle next.store).counted 0, hrecycled ▸ h.settings,
      fun handle a hmem => ?_⟩
    rw [hsize]
    exact h.issued handle a ((List.mem_cons.mp hmem).resolve_left fun heq => by cases heq)

theorem Run.accounts (hrun : Run (Host.start { settings }) history w) :
    w.Accounts settings history := by
  induction hrun with
  | start => exact accounts_start settings
  | step _ hstep ih => exact hstep.accounts ih

-- The free list is the list of the vacant slots, slots and handles keep within bounds, a
-- registration is refused just where no slot is left, and collections account for the slots.
theorem slots_accounted (hvalid : settings.check = .ok ()) :
    ∃ r, Registry.new settings = .ok r ∧ ∀ history w, Run (start r) history w →
      (w.registry.free.Nodup ∧ ∀ i, i ∈ w.registry.free ↔
        ∃ slot, w.registry.slots[i]? = some slot ∧ slot.entry = none) ∧
      (w.registry.slots.size ≤ settings.maxSlots ∧
        ∀ handle a, .issued handle a ∈ history → handle.index < UInt32.size) ∧
      (∀ a, (∃ error, (w.registry.register a).1 = .error error) ↔
        w.registry.free = [] ∧ w.registry.slots.size = settings.maxSlots) ∧
      ∀ roots stats after t, w.registry.collect w.store roots w.held = (stats, after, t) →
        (∀ slot ∈ after.slots, ∀ a, slot.entry = some a → t.Lives a) ∧
        stats.live + stats.cleared = w.registry.live w.store ∧
        stats.freed + after.live t = w.registry.occupied := by
  refine ⟨_, new_of_check hvalid, fun history w hrun => ?_⟩
  obtain ⟨haccounted, hsettings, hissued⟩ := hrun.accounts
  have hsize := haccounted.size_le
  rw [hsettings] at hsize
  refine ⟨⟨haccounted.orderly.nodup, haccounted.mem_free_iff⟩, ⟨hsize, fun handle a hmem => ?_⟩,
    fun a => ?_, fun roots stats after t hcollect => collect_accounts hcollect⟩
  · have hbound : maxSlotLimit < UInt32.size := by decide
    have hmax := maxSlots_le_of_check hvalid
    have hindex := hissued handle a hmem
    omega
  · rw [register_error_iff, hsettings]
    exact and_congr_right fun _ => ⟨Nat.le_antisymm hsize, Nat.le_of_eq ∘ Eq.symm⟩

-- A registry with one slot, and one container in it.
theorem slots_accounted_full :
    let settings : RegistrySettings := { initialCapacity := 0, maxSlots := 1 }
    settings.check = .ok () ∧
    ∃ r history w, Registry.new settings = .ok r ∧ Run (start r) history w ∧
      (∃ error, (w.registry.register ⟨0⟩).1 = .error error) ∧
      ∃ stats after t, w.registry.collect w.store [] w.held = (stats, after, t) ∧
        stats.live + stats.cleared = 1 ∧ stats.freed + after.live t = 1 := by
  intro settings
  have hvalid : settings.check = .ok () := rfl
  obtain ⟨r, hnew, haccounts⟩ := slots_accounted hvalid
  cases hnew
  have hrun : Run (start { settings }) [.issued ⟨0, 0⟩ ⟨0⟩]
      ⟨{ settings, slots := #[⟨0, some ⟨0⟩⟩], sinceCollect := 1 },
        ⟨#[some (.list { element := .any })]⟩, [.container ⟨0⟩]⟩ :=
    .step .start
      (.alloc (c := .list { element := .any }) (fun b hb => absurd hb List.not_mem_nil) rfl)
  obtain ⟨_, _, hrefused, hcollect⟩ := haccounts _ _ hrun
  refine ⟨hvalid, _, _, _, rfl, hrun, (hrefused ⟨0⟩).mpr ⟨rfl, rfl⟩, _, _, _, rfl, ?_⟩
  exact (hcollect [] _ _ _ rfl).2

end Host

end Conductor
