import Conductor.Proofs.Registry.Run

namespace Conductor

namespace Registry

variable {r after : Registry} {s : Store} {a b : Address} {handle : Handle} {k : Nat}

-- The free list names slots that remember nothing, each once.
structure Orderly (r : Registry) : Prop where
  nodup : r.free.Nodup
  vacant : ∀ i ∈ r.free, ∃ slot, r.slots[i]? = some slot ∧ slot.entry = none

theorem eq_of_new {settings : RegistrySettings} (h : Registry.new settings = .ok r) :
    r = { settings } := by
  cases hcheck : settings.check <;> simp [Registry.new, hcheck] at h
  exact h.symm

theorem orderly_new {settings : RegistrySettings} (h : Registry.new settings = .ok r) :
    r.Orderly := by
  rw [eq_of_new h]
  exact ⟨List.nodup_nil, fun i hi => absurd hi List.not_mem_nil⟩

theorem register_of_error {error : RegistryError} (h : r.register a = (.error error, after)) :
    after = { r with sinceCollect := r.sinceCollect + 1 } := by
  simp only [register] at h
  split at h
  · cases h
  · split at h
    · cases h
    · cases h
      rfl

-- A registration fills one slot, a vacant one or a new one, and leaves the others as they are.
theorem Orderly.register_of_ok (horderly : r.Orderly) (h : r.register a = (.ok handle, after)) :
    (∀ i, after.slots[i]? =
      if i = handle.index then some ⟨handle.generation, some a⟩ else r.slots[i]?) ∧
    (∀ slot, r.slots[handle.index]? = some slot →
      slot.entry = none ∧ slot.generation = handle.generation) ∧
    after.free = r.free.tail ∧ handle.index ∉ after.free := by
  simp only [register] at h
  split at h
  · rename_i index rest hfree
    cases h
    obtain ⟨slot, hslot, hentry⟩ := horderly.vacant index (hfree ▸ List.mem_cons_self)
    have hnodup := horderly.nodup
    rw [hfree, List.nodup_cons] at hnodup
    obtain ⟨hsize, _⟩ := Array.getElem?_eq_some_iff.mp hslot
    refine ⟨fun i => ?_, fun other hother => ?_, by simp [hfree], hnodup.1⟩
    · rw [Array.getElem?_setIfInBounds]
      by_cases hi : i = index
      · simp [hi, hsize]
      · simp [hi, Ne.symm hi]
    · obtain rfl := Option.some.inj (hslot.symm.trans hother)
      exact ⟨hentry, by simp [hslot]⟩
  · rename_i hfree
    split at h
    · cases h
      refine ⟨fun i => ?_, fun slot hslot => ?_, ?_, ?_⟩
      · rw [Array.getElem?_push]
      · simp at hslot
      · exact hfree ▸ rfl
      · exact hfree ▸ List.not_mem_nil
    · cases h

theorem Orderly.register (horderly : r.Orderly) (h : r.register a = (.ok handle, after)) :
    after.Orderly := by
  obtain ⟨hslots, _, hfree, hused⟩ := horderly.register_of_ok h
  refine ⟨hfree ▸ horderly.nodup.tail, fun i hi => ?_⟩
  have hne : i ≠ handle.index := fun heq => hused (heq ▸ hi)
  rw [hslots, if_neg hne]
  exact horderly.vacant i (List.mem_of_mem_tail (hfree ▸ hi))

theorem nodup_deadSlots (r : Registry) (s : Store) : (r.deadSlots s).Nodup :=
  List.nodup_range.filter _

theorem Orderly.recycle (horderly : r.Orderly) (s : Store) : (r.recycle s).Orderly := by
  refine ⟨?_, fun i hi => ?_⟩
  · have hreverse := (List.reverse_perm (r.deadSlots s)).nodup_iff.mpr (r.nodup_deadSlots s)
    refine List.nodup_append.mpr ⟨hreverse, horderly.nodup, ?_⟩
    rintro i hi _ hfree rfl
    obtain ⟨slot, hslot, hentry⟩ := horderly.vacant i hfree
    have hdead := (mem_deadSlots_of_slot hslot).mp (List.mem_reverse.mp hi)
    exact Slot.not_isDead_of_none hentry hdead
  · rw [getElem?_recycle]
    rcases List.mem_append.mp hi with hdead | hfree
    · obtain ⟨slot, hslot, hdead⟩ := mem_deadSlots_iff.mp (List.mem_reverse.mp hdead)
      exact ⟨⟨slot.generation + 1, none⟩, by rw [hslot, Option.map_some, if_pos hdead], rfl⟩
    · obtain ⟨slot, hslot, hentry⟩ := horderly.vacant i hfree
      have hkept := Slot.not_isDead_of_none (s := s) hentry
      exact ⟨slot, by rw [hslot, Option.map_some, if_neg hkept], hentry⟩

-- The slot of a handle for the container, recycled `k` times since the handle was handed out.
def Tracks (r : Registry) (handle : Handle) (a : Address) (k : Nat) : Prop :=
  ∃ slot, r.slots[handle.index]? = some slot ∧
    slot.generation = handle.generation + UInt32.ofNat k ∧ (k = 0 → slot.entry = some a)

theorem tracks_of_register (horderly : r.Orderly) (h : r.register a = (.ok handle, after)) :
    after.Tracks handle a 0 := by
  obtain ⟨hslots, _⟩ := horderly.register_of_ok h
  exact ⟨⟨handle.generation, some a⟩, by rw [hslots, if_pos rfl], by simp, fun _ => rfl⟩

theorem Tracks.register {new : Handle} (h : r.Tracks handle a k) (horderly : r.Orderly)
    (hregister : r.register b = (.ok new, after)) : after.Tracks handle a k := by
  obtain ⟨hslots, hvacant, _⟩ := horderly.register_of_ok hregister
  obtain ⟨slot, hslot, hgeneration, hentry⟩ := h
  by_cases hindex : handle.index = new.index
  · -- The slot was vacant, so it has been recycled since it remembered `a`.
    obtain ⟨hnone, hsame⟩ := hvacant slot (hindex ▸ hslot)
    refine ⟨⟨new.generation, some b⟩, by rw [hslots, if_pos hindex], ?_, fun hk => ?_⟩
    · rw [← hgeneration, hsame]
    · rw [hentry hk] at hnone
      cases hnone
  · exact ⟨slot, by rw [hslots, if_neg hindex, hslot], hgeneration, hentry⟩

theorem Tracks.recycle (h : r.Tracks handle a k) (s : Store) :
    (r.recycle s).Tracks handle a (k + (r.deadSlots s).count handle.index) := by
  obtain ⟨slot, hslot, hgeneration, hentry⟩ := h
  rw [(r.nodup_deadSlots s).count]
  simp only [mem_deadSlots_of_slot hslot]
  by_cases hdead : slot.isDead s
  · rw [if_pos hdead]
    refine ⟨⟨slot.generation + 1, none⟩, ?_, ?_, fun hk => by cases hk⟩
    · rw [getElem?_recycle, hslot, Option.map_some, if_pos hdead]
    · rw [UInt32.ofNat_add, ← UInt32.add_assoc, ← hgeneration]
      rfl
  · rw [if_neg hdead]
    refine ⟨slot, ?_, hgeneration, hentry⟩
    rw [getElem?_recycle, hslot, Option.map_some, if_neg hdead]

-- A slot is recycled while it still remembers its container.
theorem Tracks.gone_of_recycled (h : r.Tracks handle a 0) (hmem : handle.index ∈ r.deadSlots s) :
    ¬s.Lives a := by
  obtain ⟨slot, hslot, _, hentry⟩ := h
  obtain ⟨b, hb, hgone⟩ := Slot.isDead_iff.mp ((mem_deadSlots_of_slot hslot).mp hmem)
  obtain rfl := Option.some.inj ((hentry rfl).symm.trans hb)
  exact hgone

theorem Tracks.get?_of_zero (h : r.Tracks handle a 0) (s : Store) :
    r.get? s handle = if s.Lives a then some (.container a) else none := by
  obtain ⟨slot, hslot, hgeneration, hentry⟩ := h
  have hsame : slot.generation = handle.generation := by simpa using hgeneration
  rw [get?_of_slot hslot, if_pos hsame, Slot.resident?_of_some (hentry rfl)]
  split <;> rfl

theorem Tracks.get?_of_pos (h : r.Tracks handle a k) (hpos : 0 < k) (hlt : k < UInt32.size)
    (s : Store) : r.get? s handle = none := by
  obtain ⟨slot, hslot, hgeneration, _⟩ := h
  have hother : slot.generation ≠ handle.generation := by
    intro hsame
    have hzero : UInt32.ofNat k = 0 := UInt32.add_eq_left.mp (hgeneration.symm.trans hsame)
    have hk : (UInt32.ofNat k).toNat = k := UInt32.toNat_ofNat_of_lt' hlt
    rw [hzero, UInt32.toNat_zero] at hk
    omega
  rw [get?_of_slot hslot, if_neg hother]

theorem Tracks.get?_of_gone (h : r.Tracks handle a k) (hlt : k < UInt32.size)
    (hgone : ¬s.Lives a) : r.get? s handle = none := by
  rcases Nat.eq_zero_or_pos k with rfl | hpos
  · rw [h.get?_of_zero, if_neg hgone]
  · exact h.get?_of_pos hpos hlt s

end Registry

-- How often what happened recycled the slot.
def Event.recyclings (i : Nat) : Event → Nat
  | .recycled slots => slots.count i
  | _ => 0

namespace Host

variable {w next : Host} {event : Event} {handle : Handle} {a : Address} {k : Nat}

def recyclings (i : Nat) : List Event → Nat
  | [] => 0
  | event :: history => event.recyclings i + recyclings i history

-- The three things that a step can do to a registry.
theorem Step.registry_cases (hstep : Step w event next) :
    (event = .quiet ∧ ∃ n, next.registry = { w.registry with sinceCollect := n }) ∨
    (∃ handle a, event = .issued handle a ∧
      w.registry.register a = (.ok handle, next.registry) ∧
      (w.store.Intact w.held → next.store.Lives a)) ∨
    (event = .recycled (w.registry.deadSlots next.store) ∧
      next.registry = { w.registry.recycle next.store with sinceCollect := 0 }) := by
  cases hstep with
  | create hc => exact .inl ⟨rfl, _, rfl⟩
  | alloc hc hregister =>
    exact .inr (.inl ⟨_, _, rfl, hregister, fun _ => Store.lives_allocate.mpr (.inl rfl)⟩)
  | allocRefused hc hkept hregister => exact .inl ⟨rfl, _, Registry.register_of_error hregister⟩
  | register ha hregister =>
    exact .inr (.inl ⟨_, _, rfl, hregister, fun hintact => hintact.held _ ha⟩)
  | registerRefused ha hregister => exact .inl ⟨rfl, _, Registry.register_of_error hregister⟩
  | write ha hfind hgiven hwrites => exact .inl ⟨rfl, _, rfl⟩
  | take ha hv => exact .inl ⟨rfl, _, rfl⟩
  | resolve hget => exact .inl ⟨rfl, _, rfl⟩
  | drop hkept => exact .inl ⟨rfl, _, rfl⟩
  | collect hroots hcollect =>
    rw [Registry.collect_eq] at hcollect
    cases hcollect
    exact .inr (.inr ⟨rfl, rfl⟩)

theorem Step.orderly (hstep : Step w event next) (h : w.registry.Orderly) :
    next.registry.Orderly := by
  obtain ⟨_, n, hsame⟩ | ⟨handle, a, _, hregister, _⟩ | ⟨_, hrecycled⟩ := hstep.registry_cases
  · rw [hsame]
    exact ⟨h.nodup, h.vacant⟩
  · exact h.register hregister
  · rw [hrecycled]
    exact ⟨(h.recycle next.store).nodup, (h.recycle next.store).vacant⟩

theorem Run.orderly {origin : Host} {history : List Event} (hrun : Run origin history w)
    (h : origin.registry.Orderly) : w.registry.Orderly := by
  induction hrun with
  | start => exact h
  | step _ hstep ih => exact hstep.orderly ih

-- What is known about a handle for the container whose slot has been recycled `k` times since: the
-- slot tells the recyclings, and the container is gone if there was one.
structure Follows (w : Host) (handle : Handle) (a : Address) (k : Nat) : Prop where
  tracks : w.registry.Tracks handle a k
  known : a.index < w.store.cells.size
  gone : 0 < k → ¬w.store.Lives a

theorem Step.follows_issued (hstep : Step w (.issued handle a) next)
    (hintact : w.store.Intact w.held) (horderly : w.registry.Orderly) :
    next.Follows handle a 0 := by
  obtain ⟨hevent, _⟩ | ⟨_, _, hevent, hregister, hlives⟩ | ⟨hevent, _⟩ := hstep.registry_cases
  · cases hevent
  · cases hevent
    exact ⟨Registry.tracks_of_register horderly hregister,
      Store.index_lt_of_lives (hlives hintact), fun h => absurd h (Nat.lt_irrefl 0)⟩
  · cases hevent

theorem Step.follows (hstep : Step w event next) (horderly : w.registry.Orderly)
    (h : w.Follows handle a k) : next.Follows handle a (k + event.recyclings handle.index) := by
  have hknown : a.index < next.store.cells.size := Nat.lt_of_lt_of_le h.known hstep.grows.size_le
  have hgone (hpos : 0 < k) : ¬next.store.Lives a := by
    intro hlives
    rcases hstep.grows.lives a hlives with hold | hfresh
    · exact h.gone hpos hold
    · exact absurd h.known (Nat.not_lt.mpr hfresh)
  obtain ⟨rfl, n, hsame⟩ | ⟨new, b, rfl, hregister, _⟩ | ⟨rfl, hrecycled⟩ := hstep.registry_cases
  · exact ⟨hsame ▸ h.tracks, hknown, hgone⟩
  · exact ⟨h.tracks.register horderly hregister, hknown, hgone⟩
  · refine ⟨hrecycled ▸ h.tracks.recycle next.store, hknown, fun hpos => ?_⟩
    by_cases hk : k = 0
    · subst hk
      refine h.tracks.gone_of_recycled (List.count_pos_iff.mp ?_)
      rwa [Nat.zero_add] at hpos
    · exact hgone (Nat.pos_of_ne_zero hk)

theorem Run.follows {settings : RegistrySettings} {r : Registry} {later earlier : List Event}
    (hnew : Registry.new settings = .ok r)
    (hrun : Run (Host.start r) (later ++ .issued handle a :: earlier) w) :
    w.Follows handle a (recyclings handle.index later) := by
  induction later generalizing w with
  | nil =>
    cases hrun with
    | step hrun hstep =>
      have horderly := hrun.orderly (Registry.orderly_new hnew)
      exact hstep.follows_issued hrun.intact horderly
  | cons event later ih =>
    cases hrun with
    | step hrun hstep =>
      have hfollows := hstep.follows (hrun.orderly (Registry.orderly_new hnew)) (ih hrun)
      rw [Nat.add_comm] at hfollows
      exact hfollows

-- A handle names its container as long as its slot has not been recycled, and names nothing after
-- that until the generations of the slot come round.
theorem get?_of_issued {settings : RegistrySettings} {r : Registry} {later earlier : List Event}
    (hnew : Registry.new settings = .ok r)
    (hrun : Run (start r) (later ++ .issued handle a :: earlier) w) :
    (recyclings handle.index later = 0 → w.registry.get? w.store handle =
      if w.store.Lives a then some (.container a) else none) ∧
    (0 < recyclings handle.index later → recyclings handle.index later < UInt32.size →
      w.registry.get? w.store handle = none) ∧
    (recyclings handle.index later < UInt32.size →
      ∀ v, w.registry.get? w.store handle = some v → v = .container a) := by
  have htracks := (hrun.follows hnew).tracks
  have hfresh : recyclings handle.index later = 0 → w.registry.get? w.store handle =
      if w.store.Lives a then some (.container a) else none := by
    intro hzero
    rw [hzero] at htracks
    exact htracks.get?_of_zero w.store
  have hstale (hpos : 0 < recyclings handle.index later)
      (hlt : recyclings handle.index later < UInt32.size) :
      w.registry.get? w.store handle = none := htracks.get?_of_pos hpos hlt w.store
  refine ⟨hfresh, hstale, fun hlt v hget => ?_⟩
  rcases Nat.eq_zero_or_pos (recyclings handle.index later) with hzero | hpos
  · rw [hfresh hzero] at hget
    split at hget
    · exact (Option.some.inj hget).symm
    · cases hget
  · rw [hstale hpos hlt] at hget
    cases hget

-- What happens to the slot of a container that is let go and collected before another one is made.
def reusing : List Event := [.issued ⟨0, 1⟩ ⟨1⟩, .recycled [0], .quiet]

theorem exists_run_reusing : ∃ w, Run (start .initial) (reusing ++ .issued ⟨0, 0⟩ ⟨0⟩ :: []) w ∧
    w.registry.get? w.store ⟨0, 1⟩ = some (.container ⟨1⟩) := by
  let c : Container := .list { element := .any }
  let filled : Store := ⟨#[some c]⟩
  let vacant : Store := ⟨#[none]⟩
  let r : Registry := { settings := {}, slots := #[⟨0, some ⟨0⟩⟩], sinceCollect := 1 }
  have hvacant (t : Store) (hsize : t.cells.size = 1) (hgone : ¬t.Lives ⟨0⟩) : t = vacant := by
    obtain ⟨cells⟩ := t
    obtain ⟨cell, rfl⟩ := Array.size_eq_one_iff.mp hsize
    cases cell with
    | none => rfl
    | some d => exact absurd rfl hgone
  have hloose (a : Address) : ¬filled.Refers a ⟨0⟩ := by
    intro hrefers
    obtain ⟨d, hfind, hb⟩ := Store.exists_find?_of_refers hrefers
    obtain ⟨_ | i⟩ := a
    · obtain rfl : c = d := Option.some.inj hfind
      cases hb
    · simp [filled, Store.find?] at hfind
  have hdropped : filled.release [] = vacant := by
    refine hvacant _ (Store.size_release _ _) fun hlives => ?_
    obtain ⟨d, hfind⟩ := Store.lives_iff.mp hlives
    rcases Store.settled_release filled [] _ d hfind with hheld | ⟨a, hrefers⟩
    · cases hheld
    · exact hloose a ((Store.release_extends filled []).refers hrefers)
  have hswept : r.swept vacant [] [] = vacant := by
    refine hvacant _ ?_ fun hlives => ?_
    · rw [Registry.swept, Store.size_release, Store.size_emptied]
      rfl
    · exact absurd (Registry.lives_of_lives_swept hlives) (by decide)
  have hissued : Run (start .initial) [.issued ⟨0, 0⟩ ⟨0⟩] ⟨r, filled, [.container ⟨0⟩]⟩ :=
    .step .start (.alloc (c := c) (fun b hb => absurd hb List.not_mem_nil) rfl)
  have hdrop : Run (start .initial) [.quiet, .issued ⟨0, 0⟩ ⟨0⟩] ⟨r, vacant, []⟩ :=
    hdropped ▸ .step hissued (.drop fun b hb => absurd hb List.not_mem_nil)
  have hdead : r.deadSlots vacant = [0] := by decide
  have hrecycle : r.recycle vacant = { r with slots := #[⟨1, none⟩], free := [0] } := by
    have hslot : (⟨0, some ⟨0⟩⟩ : Slot).isDead vacant := by decide
    simp [Registry.recycle, hdead, hslot, r]
  have hcollect := r.collect_eq vacant [] []
  rw [hswept, hrecycle] at hcollect
  have hcollected : Run (start .initial) [.recycled [0], .quiet, .issued ⟨0, 0⟩ ⟨0⟩]
      ⟨{ settings := {}, slots := #[⟨1, none⟩], free := [0] }, vacant, []⟩ :=
    hdead ▸ .step hdrop (.collect (fun b hb => absurd hb List.not_mem_nil) hcollect)
  exact ⟨_, .step hcollected (.alloc (c := c) (fun b hb => absurd hb List.not_mem_nil) rfl), rfl⟩

theorem get?_of_issued_reusing : ∃ w,
    Run (start .initial) (reusing ++ .issued ⟨0, 0⟩ ⟨0⟩ :: []) w ∧
    w.registry.get? w.store ⟨0, 1⟩ = some (.container ⟨1⟩) ∧
    w.registry.get? w.store ⟨0, 0⟩ = none := by
  obtain ⟨w, hrun, hget⟩ := exists_run_reusing
  have hnew : Registry.new {} = .ok .initial := rfl
  exact ⟨w, hrun, hget, (get?_of_issued hnew hrun).2.1 (by decide) (by decide)⟩

end Host

end Conductor
