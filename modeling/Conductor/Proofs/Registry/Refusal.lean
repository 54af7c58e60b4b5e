import Conductor.Proofs.Registry.Mirroring

namespace Conductor

namespace Store

variable {s : Store} {held kept : List Value} {c : Container} {a : Address}

theorem Stays.lives (h : s.Stays kept a) (hintact : s.Intact held)
    (hkept : ∀ b, .container b ∈ kept → .container b ∈ held) : s.Lives a := by
  obtain ⟨P, hsupported, ha⟩ := h
  obtain hheld | ⟨b, _, hrefers⟩ := hsupported a ha
  · exact hintact.held a (hkept a hheld)
  · exact hintact.closed b a hrefers

-- Nothing holds a new container, so it keeps nothing.
theorem stays_of_stays_allocate (h : (s.allocate c).2.Stays kept a) (hintact : s.Intact held)
    (hc : ∀ b ∈ c.references, .container b ∈ held)
    (hkept : ∀ b, .container b ∈ kept → .container b ∈ held) : s.Stays kept a := by
  obtain ⟨P, hsupported, ha⟩ := h
  have hunborn : ¬s.Lives (s.allocate c).1 := fun hlives =>
    Nat.lt_irrefl _ (index_lt_of_lives hlives)
  have hold {b x : Address} (hrefers : (s.allocate c).2.Refers b x) :
      s.Lives x ∧ (b ≠ (s.allocate c).1 → s.Refers b x) := by
    obtain ⟨d, hfind, hx⟩ := exists_find?_of_refers hrefers
    rw [find?_allocate] at hfind
    split at hfind
    · cases hfind
      exact ⟨hintact.held x (hc x hx), fun hne => absurd ‹_› hne⟩
    · have hrefers := refers_of_find? hfind hx
      exact ⟨hintact.closed b x hrefers, fun _ => hrefers⟩
  have hnew : ¬P (s.allocate c).1 := by
    intro hmem
    obtain hheld | ⟨b, _, hrefers⟩ := hsupported _ hmem
    · exact hunborn (hintact.held _ (hkept _ hheld))
    · exact hunborn (hold hrefers).1
  refine ⟨P, fun x hx => (hsupported x hx).imp_right fun ⟨b, hb, hrefers⟩ => ?_, ha⟩
  exact ⟨b, hb, (hold hrefers).2 fun heq => hnew (heq ▸ hb)⟩

-- A container that is made and let go of at once leaves nothing behind.
theorem find?_release_allocate (hintact : s.Intact held)
    (hc : ∀ b ∈ c.references, .container b ∈ held)
    (hkept : ∀ b, .container b ∈ kept → .container b ∈ held) (a : Address) :
    ((s.allocate c).2.release kept).find? a = (s.release kept).find? a := by
  by_cases hstays : s.Stays kept a
  · have hne : a ≠ (s.allocate c).1 := by
      rintro rfl
      exact Nat.lt_irrefl _ (index_lt_of_lives (hstays.lives hintact hkept))
    rw [find?_release_of_stays hstays,
      find?_release_of_stays ((extends_allocate s c).stays hstays), find?_allocate, if_neg hne]
  · have hgone : ¬((s.allocate c).2.release kept).Lives a := fun hlives =>
      hstays (stays_of_stays_allocate (lives_release_iff.mp hlives).2 hintact hc hkept)
    have hbefore : ¬(s.release kept).Lives a := fun hlives => hstays (lives_release_iff.mp hlives).2
    rw [Option.not_isSome_iff_eq_none.mp hgone, Option.not_isSome_iff_eq_none.mp hbefore]

theorem Settled.allocate (h : s.Settled held) :
    (s.allocate c).2.Settled (.container (s.allocate c).1 :: held) := by
  intro a d hfind
  rw [find?_allocate] at hfind
  split at hfind
  · rename_i ha
    exact .inl (ha ▸ List.mem_cons_self)
  · refine (h a d hfind).imp (List.mem_cons_of_mem _) fun ⟨b, hrefers⟩ => ⟨b, ?_⟩
    exact (extends_allocate s c).refers hrefers

theorem Settled.mono (h : s.Settled held)
    (hsub : ∀ a, .container a ∈ held → .container a ∈ kept) : s.Settled kept :=
  fun a d hfind => (h a d hfind).imp_left (hsub a)

end Store

namespace Registry

variable {r after : Registry} {s : Store} {a b : Address}

theorem remembers_register {answer : Except RegistryError Handle}
    (hregister : r.register a = (answer, after)) (h : after.Remembers b) :
    b = a ∨ r.Remembers b := by
  obtain ⟨slot, hslot, hentry⟩ := h
  obtain ⟨_, _, _, _, heq⟩ | ⟨_, _, heq⟩ | ⟨_, _, heq⟩ := r.register_cases a
  · cases hregister.symm.trans heq
    rcases Array.mem_or_eq_of_mem_setIfInBounds hslot with hold | rfl
    · exact .inr ⟨slot, hold, hentry⟩
    · exact .inl (Option.some.inj hentry).symm
  · cases hregister.symm.trans heq
    rcases Array.mem_push.mp hslot with hold | rfl
    · exact .inr ⟨slot, hold, hentry⟩
    · exact .inl (Option.some.inj hentry).symm
  · cases hregister.symm.trans heq
    exact .inr ⟨slot, hslot, hentry⟩

theorem remembers_of_recycle (h : (r.recycle s).Remembers b) : r.Remembers b := by
  obtain ⟨_, hslot, hentry⟩ := h
  obtain ⟨slot, hold, rfl⟩ := Array.mem_map.mp hslot
  by_cases hdead : slot.isDead s
  · rw [if_pos hdead] at hentry
    cases hentry
  · rw [if_neg hdead] at hentry
    exact ⟨slot, hold, hentry⟩

end Registry

namespace Host

variable {w next : Host} {event : Event}

-- Nothing is there that nothing holds, and the registry only remembers what was there once.
structure Tidy (w : Host) : Prop where
  settled : w.store.Settled w.held
  known : ∀ a, w.registry.Remembers a → a.index < w.store.cells.size

theorem tidy_start (settings : RegistrySettings) : (start { settings }).Tidy := by
  refine ⟨fun a c hfind => ?_, fun a ⟨slot, hslot, _⟩ => ?_⟩
  · rw [start, Store.find?_of_size_le (Nat.zero_le _)] at hfind
    cases hfind
  · simp [start] at hslot

theorem Step.settled (hstep : Step w event next) (h : w.store.Settled w.held) :
    next.store.Settled next.held := by
  cases hstep with
  | create hc => exact h.allocate
  | alloc hc hregister => exact h.allocate
  | allocRefused hc hkept hregister => exact Store.settled_release _ _
  | register ha hregister => exact h
  | registerRefused ha hregister => exact h
  | write ha hfind hgiven hwrites => exact Store.settled_release _ _
  | take ha hv => exact h.mono fun _ => List.mem_cons_of_mem _
  | resolve hget => exact h.mono fun _ => List.mem_cons_of_mem _
  | drop hkept => exact Store.settled_release _ _
  | collect hroots hcollect =>
    rw [Registry.collect_eq] at hcollect
    cases hcollect
    exact (Store.settled_release _ _).mono fun a ha =>
      (List.mem_append.mp ha).elim (hroots a) id

theorem Step.known (hstep : Step w event next) (hintact : w.store.Intact w.held)
    (h : ∀ a, w.registry.Remembers a → a.index < w.store.cells.size) :
    ∀ a, next.registry.Remembers a → a.index < next.store.cells.size := by
  have hgrows := hstep.grows.size_le
  obtain ⟨_, n, hsame⟩ | ⟨handle, a, _, hregister, hlives⟩ | ⟨_, hrecycled⟩ := hstep.registry_cases
  · intro a ha
    rw [hsame] at ha
    exact Nat.lt_of_lt_of_le (h a ha) hgrows
  · intro b hb
    rcases Registry.remembers_register hregister hb with rfl | hold
    · exact Store.index_lt_of_lives (hlives hintact)
    · exact Nat.lt_of_lt_of_le (h b hold) hgrows
  · intro a ha
    rw [hrecycled] at ha
    exact Nat.lt_of_lt_of_le (h a (Registry.remembers_of_recycle ha)) hgrows

theorem Run.tidy {settings : RegistrySettings} {history : List Event}
    (hrun : Run (Host.start { settings }) history w) : w.Tidy := by
  induction hrun with
  | start => exact tidy_start settings
  | step hrun hstep ih => exact ⟨hstep.settled ih.settled, hstep.known hrun.intact ih.known⟩

-- The host when it only holds on to some of the values.
def keeping (w : Host) (kept : List Value) : Host :=
  { w with store := w.store.release kept, held := kept }

theorem keeping_of_held {kept : List Value} (h : w.store.Settled w.held)
    (hkept : ∀ b, .container b ∈ w.held → .container b ∈ kept) :
    w.keeping kept = { w with held := kept } := by
  rw [keeping, Store.release_of_settled (h.mono hkept)]

-- A registration that is refused, of a container that is there or of one that is made for it. The
-- latter is gone afterwards. What was moved into it is not held any more, unless it is kept
-- elsewhere.
inductive Refused (w : Host) : Host → Prop
  | alloc {c : Container} {kept : List Value} {error : RegistryError} {r : Registry}
      (hc : ∀ b ∈ c.references, .container b ∈ w.held)
      (hkept : ∀ b, .container b ∈ kept → .container b ∈ w.held)
      (hmoved : ∀ b, .container b ∈ w.held → .container b ∈ kept ∨ b ∈ c.references)
      (hregister : w.registry.register (w.store.allocate c).1 = (.error error, r)) :
      Refused w { registry := r, store := (w.store.allocate c).2.release kept, held := kept }
  | register {a : Address} {error : RegistryError} {r : Registry}
      (ha : .container a ∈ w.held) (hregister : w.registry.register a = (.error error, r)) :
      Refused w { w with registry := r }

theorem Refused.step (h : Refused w next) : Step w .quiet next := by
  cases h with
  | alloc hc hkept hmoved hregister => exact .allocRefused hc hkept hregister
  | register ha hregister => exact .registerRefused ha hregister

theorem Refused.held_of_held (h : Refused w next) :
    ∀ b, .container b ∈ next.held → .container b ∈ w.held := by
  cases h with
  | alloc hc hkept hmoved hregister => exact hkept
  | register ha hregister => exact fun _ => id

-- Every attempt to register counts, the other things are as they were.
structure Counted (w next : Host) : Prop where
  registry : next.registry = { w.registry with sinceCollect := w.registry.sinceCollect + 1 }
  store : ∀ a, next.store.find? a = w.store.find? a
  size_le : w.store.cells.size ≤ next.store.cells.size
  held : next.held = w.held

theorem Refused.counted (h : Refused w next) (hintact : w.store.Intact w.held)
    (hsettled : w.store.Settled w.held) : (w.keeping next.held).Counted next := by
  have hsize : (w.keeping next.held).store.cells.size ≤ next.store.cells.size :=
    (Store.size_release _ _).trans_le h.step.grows.size_le
  cases h with
  | alloc hc hkept hmoved hregister =>
    exact ⟨Registry.register_of_error hregister,
      Store.find?_release_allocate hintact hc hkept, hsize, rfl⟩
  | register ha hregister =>
    rw [keeping_of_held hsettled fun _ => id] at hsize ⊢
    exact ⟨Registry.register_of_error hregister, fun _ => rfl, hsize, rfl⟩

theorem Counted.mirrors (h : w.Counted next) (hintact : w.store.Intact w.held) (htidy : w.Tidy) :
    w.Mirrors w.store.identity 1 0 next := by
  refine ⟨?_, Store.mirrors_of_find? hintact.closed h.size_le h.store, ?_⟩
  · rw [h.registry]
    refine ⟨rfl, List.forall₂_same.mpr fun slot hslot => ⟨rfl, rel_self fun a ha => ?_⟩, rfl, rfl⟩
    exact ⟨rfl, htidy.known a ⟨slot, Array.mem_toList_iff.mp hslot, ha⟩⟩
  · rw [h.held]
    refine List.forall₂_same.mpr fun v hv => Value.mirrors_self fun a ha => ?_
    exact Store.identity_of_lives (hintact.held a (ha ▸ hv))

-- All that a host can find out is the same on both sides, up to the addresses: what it holds, what
-- is in the containers, what the handles name, how many containers live, and what a registration or
-- a collection would answer.
structure LooksLike (R : Address → Address → Prop) (w v : Host) : Prop where
  unique : Relator.BiUnique R
  held : List.Forall₂ (Value.Mirrors R) w.held v.held
  contents : ∀ a b, R a b → Option.Rel (Container.Mirrors R) (w.store.find? a) (v.store.find? b)
  resolved : ∀ handle, Option.Rel (Value.Mirrors R) (w.registry.get? w.store handle)
    (v.registry.get? v.store handle)
  live : v.registry.live v.store = w.registry.live w.store
  registered : ∀ a b, R a b → (v.registry.register b).1 = (w.registry.register a).1
  collected : ∀ roots others, List.Forall₂ (Value.Mirrors R) roots others →
    (w.registry.collect w.store roots w.held).1 = (v.registry.collect v.store others v.held).1

theorem Mirrors.looksLike {R : Address → Address → Prop} {m n : Nat} {v : Host}
    (h : w.Mirrors R m n v) : w.LooksLike R v where
  unique := h.store.unique
  held := h.held
  contents := h.store.cells
  resolved := h.registry.get? h.store
  live := (h.registry.live_eq h.store).symm
  registered _ _ hab := (h.registry.register hab).1
  collected _ _ hroots := h.registry.collect h.store hroots h.held

theorem Mirrors.shouldCollect {R : Address → Address → Prop} {m : Nat} {v : Host}
    (h : w.Mirrors R m 0 v) : v.registry.shouldCollect =
      { w.registry with sinceCollect := w.registry.sinceCollect + m }.shouldCollect := by
  have hcount : w.registry.sinceCollect + m = v.registry.sinceCollect := h.registry.count
  rw [Registry.shouldCollect, Registry.shouldCollect, ← h.registry.settings, ← hcount]

theorem leaves_zero (later : List Event) : leaves 0 later = 0 := by
  induction later with
  | nil => rfl
  | cons event earlier ih =>
    rw [leaves, ih]
    cases event <;> rfl

theorem leaves_eq {R : Address → Address → Prop} {later other : List Event} {n : Nat}
    (h : List.Forall₂ (Event.Mirrors R) later other) : leaves n later = leaves n other := by
  induction h with
  | nil => rfl
  | cons hevent _ ih =>
    rw [leaves, leaves, ih]
    cases hevent <;> rfl

-- One run with and one without the refused registration before it: the same happened, and at the
-- end the same can be seen, except that the hint to collect counts one attempt more until the next
-- collection.
structure RunsAlike (w : Host) (later other : List Event) (x y : Host)
    (R : Address → Address → Prop) : Prop where
  same : ∀ a, w.store.Lives a → R a a
  events : List.Forall₂ (Event.Mirrors R) later other
  looks : x.LooksLike R y
  hint : y.registry.shouldCollect =
    { x.registry with sinceCollect := x.registry.sinceCollect + leaves 1 later }.shouldCollect

theorem get?_keeping_iff {kept : List Value} {handle : Handle} {a : Address} :
    (w.keeping kept).registry.get? (w.keeping kept).store handle = some (.container a) ↔
      w.registry.get? w.store handle = some (.container a) ∧ w.store.Stays kept a := by
  simp only [keeping, Registry.get?_eq_some_iff, Value.container.injEq, Store.lives_release_iff]
  constructor
  · rintro ⟨slot, b, hslot, hgeneration, hentry, ⟨hlives, hstays⟩, rfl⟩
    exact ⟨⟨slot, b, hslot, hgeneration, hentry, hlives, rfl⟩, hstays⟩
  · rintro ⟨⟨slot, b, hslot, hgeneration, hentry, hlives, rfl⟩, hstays⟩
    exact ⟨slot, b, hslot, hgeneration, hentry, ⟨hlives, hstays⟩, rfl⟩

-- A registration that is refused changes nothing but the count of attempts, and a container that is
-- made for it goes with what was moved into it: all else is as if the host had only let go of that,
-- and as it was if the host let go of nothing.
theorem refused_unnoticed {settings : RegistrySettings} {r : Registry} {history : List Event}
    {after : Host} (hnew : Registry.new settings = .ok r) (hrun : Run (start r) history w)
    (h : w.Refused after) :
    (∀ handle, after.registry.get? after.store handle =
      (w.keeping after.held).registry.get? (w.keeping after.held).store handle) ∧
    after.registry.live after.store =
      (w.keeping after.held).registry.live (w.keeping after.held).store ∧
    (∀ handle a, after.registry.get? after.store handle = some (.container a) ↔
      w.registry.get? w.store handle = some (.container a) ∧ w.store.Stays after.held a) ∧
    ((∀ b, .container b ∈ w.held → .container b ∈ after.held) →
      w.keeping after.held = { w with held := after.held }) ∧
    after.registry.shouldCollect =
      { w.registry with sinceCollect := w.registry.sinceCollect + 1 }.shouldCollect ∧
    (∀ later x, Run (w.keeping after.held) later x → ∃ other y R, Run after other y ∧
      (w.keeping after.held).RunsAlike later other x y R) ∧
    ∀ other y, Run after other y → ∃ later x R, Run (w.keeping after.held) later x ∧
      (w.keeping after.held).RunsAlike later other x y R := by
  obtain rfl := Registry.eq_of_new hnew
  have hkeeping : Run (start { settings }) (.quiet :: history) (w.keeping after.held) :=
    .step hrun (.drop h.held_of_held)
  have hcounted := h.counted hrun.intact hrun.tidy.settled
  have hmirrors := hcounted.mirrors hkeeping.intact hkeeping.tidy
  have hresolved (handle : Handle) : after.registry.get? after.store handle =
      (w.keeping after.held).registry.get? (w.keeping after.held).store handle := by
    simp only [Registry.get?, Slot.resident?, hcounted.registry, hcounted.store]
  refine ⟨hresolved, hmirrors.looksLike.live, fun handle a => ?_,
    keeping_of_held hrun.tidy.settled, hmirrors.shouldCollect, ?_, ?_⟩
  · rw [hresolved, get?_keeping_iff]
  · intro later x hlater
    obtain ⟨S, other, y, hother, hsub, hevents, hxy⟩ := hlater.mirrored hmirrors
    rw [leaves_zero] at hxy
    exact ⟨other, y, S, hother, fun a ha => hsub a a (Store.identity_of_lives ha), hevents,
      hxy.looksLike, hxy.shouldCollect⟩
  · intro other y hother
    obtain ⟨S, later, x, hlater, hsub, hevents, hyx⟩ := hother.mirrored hmirrors.symm
    have hxy := hyx.symm
    rw [leaves_zero, leaves_eq hevents] at hxy
    exact ⟨later, x, flip S, hlater, fun a ha => hsub a a (Store.identity_of_lives ha),
      hevents.flip.imp fun _ _ => .symm, hxy.looksLike, hxy.shouldCollect⟩

-- A registry with one slot, that slot taken, and a hint to collect after two registrations.
def full : Host where
  registry :=
    { settings := { initialCapacity := 0, collectThreshold := 2, maxSlots := 1 }
      slots := #[⟨0, some ⟨0⟩⟩]
      sinceCollect := 1 }
  store := ⟨#[some (.list { element := .int })]⟩
  held := [.container ⟨0⟩]

theorem run_full :
    Run (start { settings := full.registry.settings }) [.issued ⟨0, 0⟩ ⟨0⟩] full :=
  .step .start
    (.alloc (c := .list { element := .int }) (fun _ hb => absurd hb List.not_mem_nil) rfl)

-- A list that holds the only container there is, and is refused with it.
def moved : Container := .list { element := .any, items := [.container ⟨0⟩] }

theorem not_stays_full : ¬full.store.Stays [] ⟨0⟩ := by
  rintro ⟨P, hsupported, h⟩
  obtain hheld | ⟨b, _, hrefers⟩ := hsupported _ h
  · cases hheld
  · obtain ⟨c, hfind, hreferences⟩ := Store.exists_find?_of_refers hrefers
    have hb := Store.index_lt_of_find? hfind
    obtain rfl : b = ⟨0⟩ := by
      obtain ⟨index⟩ := b
      exact congrArg Address.mk (Nat.lt_one_iff.mp hb)
    cases hfind
    cases hreferences

-- The host goes on without anything, and makes a list.
def relisted : Host where
  registry := full.registry
  store := ((full.keeping []).store.allocate (.list { element := .int })).2
  held := [.container ((full.keeping []).store.allocate (.list { element := .int })).1]

-- The container that was moved into the refused one is gone, and its handle names nothing.
theorem refused_unnoticed_full : ∃ after, full.Refused after ∧ after.held = [] ∧
    full.registry.get? full.store ⟨0, 0⟩ = some (.container ⟨0⟩) ∧
    (∀ a, after.registry.get? after.store ⟨0, 0⟩ ≠ some (.container a)) ∧
    after.registry.shouldCollect = true ∧
    ∃ other y R, Run after other y ∧ (full.keeping []).RunsAlike [.quiet] other relisted y R := by
  have hnew : Registry.new full.registry.settings = .ok { settings :=
    full.registry.settings } := rfl
  have hmoved (b : Address) (hb : .container b ∈ full.held) : b ∈ moved.references := by
    obtain rfl := Value.container.inj (List.mem_singleton.mp hb)
    decide
  have hrefused : full.Refused {
      registry := { full.registry with sinceCollect := 2 }
      store := (full.store.allocate moved).2.release []
      held := [] } :=
    .alloc (by decide) (fun _ hb => absurd hb List.not_mem_nil) (fun b hb => .inr (hmoved b hb)) rfl
  obtain ⟨-, -, hget, -, hhint, hlater, -⟩ := refused_unnoticed hnew run_full hrefused
  have hfirst : full.registry.get? full.store ⟨0, 0⟩ = some (.container ⟨0⟩) := rfl
  refine ⟨_, hrefused, rfl, hfirst, fun a ha => ?_, hhint.trans rfl, hlater _ _ (.step .start ?_)⟩
  · obtain ⟨hbefore, hstays⟩ := (hget _ a).mp ha
    cases hfirst.symm.trans hbefore
    exact not_stays_full hstays
  · exact .create fun _ hb => absurd hb List.not_mem_nil

-- The hint to collect does change: a registration that is refused counts like one that is not.
theorem not_unnoticed_full :
    Run (start { settings := full.registry.settings }) [.issued ⟨0, 0⟩ ⟨0⟩] full ∧
      full.Refused { full with registry := { full.registry with sinceCollect := 2 } } ∧
      full.registry.shouldCollect = false ∧
      { full.registry with sinceCollect := 2 }.shouldCollect = true :=
  ⟨run_full, .register (a := ⟨0⟩) List.mem_cons_self rfl, rfl, rfl⟩

end Host

end Conductor
