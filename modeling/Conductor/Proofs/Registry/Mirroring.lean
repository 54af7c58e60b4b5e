import Conductor.Proofs.Registry.Slots
import Conductor.Proofs.Store.Mirroring

namespace Conductor

variable {R S : Address → Address → Prop} {s t : Store} {a b : Address} {m n : Nat}

theorem Store.Mirrors.mem_reach_iff {roots others : List Value} (h : s.Mirrors R t)
    (hroots : List.Forall₂ (Value.Mirrors R) roots others) (hab : R a b) :
    a ∈ s.reach roots ↔ b ∈ t.reach others := by
  obtain ⟨ha, hb⟩ := h.known a b hab
  rw [Store.mem_reach_iff, Store.mem_reach_iff, and_iff_left ha, and_iff_left hb,
    h.reached_iff hroots hab]

structure Slot.Mirrors (R : Address → Address → Prop) (slot other : Slot) : Prop where
  generation : slot.generation = other.generation
  entry : Option.Rel R slot.entry other.entry

namespace Slot.Mirrors

variable {slot other : Slot}

theorem mono (hsub : ∀ a b, R a b → S a b) (h : slot.Mirrors R other) : slot.Mirrors S other :=
  ⟨h.generation, rel_imp hsub h.entry⟩

theorem symm (h : slot.Mirrors R other) : other.Mirrors (flip R) slot :=
  ⟨h.generation.symm, rel_flip h.entry⟩

theorem resident? (h : slot.Mirrors R other) (hst : s.Mirrors R t) :
    Option.Rel R (slot.resident? s) (other.resident? t) := by
  obtain ⟨generation, entry⟩ := slot
  obtain ⟨generationOther, entryOther⟩ := other
  obtain ⟨-, hentry⟩ := h
  cases hentry with
  | none => exact .none
  | @some a b hab =>
    rw [Slot.resident?_of_some rfl, Slot.resident?_of_some rfl]
    by_cases hlives : s.Lives a
    · rw [if_pos hlives, if_pos ((hst.lives_iff hab).mp hlives)]
      exact .some hab
    · rw [if_neg hlives, if_neg (mt (hst.lives_iff hab).mpr hlives)]
      exact .none

theorem isDead_eq (h : slot.Mirrors R other) (hst : s.Mirrors R t) :
    slot.isDead s = other.isDead t := by
  rw [Slot.isDead, Slot.isDead, OrderedMap.isSome_eq_of_rel h.entry]
  have hresident := OrderedMap.isSome_eq_of_rel (h.resident? hst)
  rw [← Option.not_isSome, ← Option.not_isSome, hresident]

end Slot.Mirrors

-- The same slots and the same free ones. The last numbers bring the counts of attempts together.
structure Registry.Mirrors (R : Address → Address → Prop) (m n : Nat) (r q : Registry) : Prop where
  settings : r.settings = q.settings
  slots : List.Forall₂ (Slot.Mirrors R) r.slots.toList q.slots.toList
  free : r.free = q.free
  count : r.sinceCollect + m = q.sinceCollect + n

namespace Registry.Mirrors

variable {r q : Registry} {roots others held kept : List Value}

theorem mono (hsub : ∀ a b, R a b → S a b) (h : Registry.Mirrors R m n r q) :
    Registry.Mirrors S m n r q :=
  { h with slots := h.slots.imp fun _ _ => .mono hsub }

theorem symm (h : Registry.Mirrors R m n r q) : Registry.Mirrors (flip R) n m q r :=
  ⟨h.settings.symm, h.slots.flip.imp fun _ _ => .symm, h.free.symm, h.count.symm⟩

theorem size_eq (h : Registry.Mirrors R m n r q) : r.slots.size = q.slots.size := h.slots.length_eq

theorem slot (h : Registry.Mirrors R m n r q) (i : Nat) :
    Option.Rel (Slot.Mirrors R) r.slots[i]? q.slots[i]? := by
  rw [← Array.getElem?_toList, ← Array.getElem?_toList]
  exact rel_getElem? h.slots i

theorem get? (h : Registry.Mirrors R m n r q) (hst : s.Mirrors R t) (handle : Handle) :
    Option.Rel (Value.Mirrors R) (r.get? s handle) (q.get? t handle) := by
  have hslot := h.slot handle.index
  rw [Registry.get?, Registry.get?]
  generalize r.slots[handle.index]? = x, q.slots[handle.index]? = y at hslot
  cases hslot with
  | none => exact .none
  | @some slot other hslot =>
    have hresident := hslot.resident? hst
    change Option.Rel _ (if slot.generation = handle.generation then _ else none)
      (if other.generation = handle.generation then _ else none)
    rw [← hslot.generation]
    split
    · generalize slot.resident? s = x, other.resident? t = y at hresident
      cases hresident with
      | none => exact .none
      | some hab => exact .some (.container hab)
    · exact .none

theorem residents (h : Registry.Mirrors R m n r q) (hst : s.Mirrors R t) :
    List.Forall₂ R (r.residents s) (q.residents t) :=
  List.rel_filterMap (fun _ _ hslot => hslot.resident? hst) h.slots

theorem live_eq (h : Registry.Mirrors R m n r q) (hst : s.Mirrors R t) : r.live s = q.live t :=
  (h.residents hst).length_eq

theorem deadSlots_eq (h : Registry.Mirrors R m n r q) (hst : s.Mirrors R t) :
    r.deadSlots s = q.deadSlots t := by
  rw [deadSlots, deadSlots, h.size_eq]
  refine List.filter_congr fun i _ => ?_
  have hslot := h.slot i
  generalize r.slots[i]? = x, q.slots[i]? = y at hslot
  cases hslot with
  | none => rfl
  | some hslot => exact hslot.isDead_eq hst

theorem recycle (h : Registry.Mirrors R m n r q) (hst : s.Mirrors R t) :
    Registry.Mirrors R m n (r.recycle s) (q.recycle t) := by
  refine ⟨h.settings, ?_, ?_, h.count⟩
  · rw [Registry.recycle, Registry.recycle, Array.toList_map, Array.toList_map]
    refine List.rel_map (fun slot other hslot => ?_) h.slots
    rw [← hslot.isDead_eq hst]
    split
    · exact ⟨congrArg (· + 1) hslot.generation, .none⟩
    · exact hslot
  · exact congrArg₂ (· ++ ·) (congrArg List.reverse (h.deadSlots_eq hst)) h.free

theorem reachable (h : Registry.Mirrors R m n r q) (hst : s.Mirrors R t)
    (hroots : List.Forall₂ (Value.Mirrors R) roots others) :
    List.Forall₂ R (r.reachable s roots) (q.reachable t others) := by
  refine List.rel_filter (fun a b hab => ?_) (h.residents hst)
  simp only [decide_eq_true_eq, hst.mem_reach_iff hroots hab]

theorem garbage (h : Registry.Mirrors R m n r q) (hst : s.Mirrors R t)
    (hroots : List.Forall₂ (Value.Mirrors R) roots others) :
    List.Forall₂ R (r.garbage s roots) (q.garbage t others) := by
  refine List.rel_filter (fun a b hab => ?_) (h.residents hst)
  simp only [Function.comp_apply, hst.mem_reach_iff hroots hab]

theorem swept (h : Registry.Mirrors R m n r q) (hst : s.Mirrors R t)
    (hroots : List.Forall₂ (Value.Mirrors R) roots others)
    (hheld : List.Forall₂ (Value.Mirrors R) held kept) :
    (r.swept s roots held).Mirrors R (q.swept t others kept) :=
  (hst.emptied (h.garbage hst hroots)).release (List.rel_append hroots hheld)

-- A registration gets the same answer on both sides.
theorem register (h : Registry.Mirrors R m n r q) (hab : R a b) :
    (q.register b).1 = (r.register a).1 ∧
      Registry.Mirrors R m n (r.register a).2 (q.register b).2 := by
  have hcount : r.sinceCollect + 1 + m = q.sinceCollect + 1 + n := by
    have := h.count
    omega
  rw [Registry.register, Registry.register, ← h.free]
  cases hfree : r.free with
  | cons index rest =>
    have hslot := h.slot index
    have hgeneration : (r.slots[index]?.map Slot.generation).getD 0 =
        (q.slots[index]?.map Slot.generation).getD 0 := by
      generalize r.slots[index]? = x, q.slots[index]? = y at hslot
      cases hslot with
      | none => rfl
      | some hslot => exact hslot.generation
    dsimp only
    rw [← hgeneration]
    refine ⟨rfl, h.settings, ?_, rfl, hcount⟩
    rw [Array.toList_setIfInBounds, Array.toList_setIfInBounds]
    exact forall₂_set h.slots ⟨rfl, .some hab⟩
  | nil =>
    dsimp only
    rw [← h.size_eq, ← h.settings]
    split
    · refine ⟨rfl, rfl, ?_, rfl, hcount⟩
      rw [Array.toList_push, Array.toList_push]
      exact List.rel_append h.slots (.cons ⟨rfl, .some hab⟩ .nil)
    · exact ⟨rfl, rfl, h.slots, rfl, hcount⟩

theorem exists_register {r' : Registry} {answer : Except RegistryError Handle}
    (h : Registry.Mirrors R m n r q) (hab : R a b) (hregister : r.register a = (answer, r')) :
    ∃ q', q.register b = (answer, q') ∧ Registry.Mirrors R m n r' q' := by
  obtain ⟨hanswer, hafter⟩ := h.register hab
  rw [hregister] at hanswer hafter
  exact ⟨(q.register b).2, Prod.ext hanswer rfl, hafter⟩

-- A collection reports the same on both sides.
theorem collect (h : Registry.Mirrors R m n r q) (hst : s.Mirrors R t)
    (hroots : List.Forall₂ (Value.Mirrors R) roots others)
    (hheld : List.Forall₂ (Value.Mirrors R) held kept) :
    (r.collect s roots held).1 = (q.collect t others kept).1 := by
  rw [collect_eq, collect_eq, (h.reachable hst hroots).length_eq, (h.garbage hst hroots).length_eq,
    h.deadSlots_eq (h.swept hst hroots hheld)]

end Registry.Mirrors

-- The same thing happened on both sides.
inductive Event.Mirrors (R : Address → Address → Prop) : Event → Event → Prop
  | issued {handle : Handle} {a b : Address} (h : R a b) :
      Mirrors R (.issued handle a) (.issued handle b)
  | recycled (slots : List Nat) : Mirrors R (.recycled slots) (.recycled slots)
  | quiet : Mirrors R .quiet .quiet

theorem Event.Mirrors.mono {event other : Event} (hsub : ∀ a b, R a b → S a b)
    (h : event.Mirrors R other) : event.Mirrors S other := by
  cases h with
  | issued h => exact .issued (hsub _ _ h)
  | recycled slots => exact .recycled slots
  | quiet => exact .quiet

theorem Event.Mirrors.symm {event other : Event} (h : event.Mirrors R other) :
    other.Mirrors (flip R) event := by
  cases h with
  | issued h => exact .issued h
  | recycled slots => exact .recycled slots
  | quiet => exact .quiet

-- What is left of a difference between two counts of attempts: a collection starts them anew.
def Event.leaves (n : Nat) : Event → Nat
  | .recycled _ => 0
  | _ => n

namespace Host

structure Mirrors (R : Address → Address → Prop) (m n : Nat) (w v : Host) : Prop where
  registry : Registry.Mirrors R m n w.registry v.registry
  store : w.store.Mirrors R v.store
  held : List.Forall₂ (Value.Mirrors R) w.held v.held

variable {w v next : Host} {event : Event} {c d : Container} {given others : List Value}

namespace Mirrors

theorem symm (h : w.Mirrors R m n v) : v.Mirrors (flip R) n m w :=
  ⟨h.registry.symm, h.store.symm, mirrors_flip h.held⟩

theorem exists_held (h : w.Mirrors R m n v) (ha : .container a ∈ w.held) :
    ∃ b, R a b ∧ .container b ∈ v.held :=
  exists_paired_of_mem h.held ha

theorem held_of_held (h : w.Mirrors R m n v) (hab : R a b) (ha : .container a ∈ w.held) :
    .container b ∈ v.held := by
  obtain ⟨x, hax, hx⟩ := h.exists_held ha
  exact h.store.unique.2 hax hab ▸ hx

-- What one host holds has a mirror image that the other one holds.
theorem held_of_forall₂ (h : w.Mirrors R m n v)
    (hgiven : ∀ a, .container a ∈ given → .container a ∈ w.held)
    (hall : List.Forall₂ (Value.Mirrors R) given others) :
    ∀ b, .container b ∈ others → .container b ∈ v.held := by
  intro b hb
  obtain ⟨a, hab, ha⟩ := exists_paired_of_mem (mirrors_flip hall) hb
  exact h.held_of_held hab (hgiven a ha)

theorem exists_kept (h : w.Mirrors R m n v)
    (hgiven : ∀ a, .container a ∈ given → .container a ∈ w.held) :
    ∃ others, List.Forall₂ (Value.Mirrors R) given others :=
  exists_mirrors_all fun a ha => (h.exists_held (hgiven a ha)).imp fun _ => And.left

theorem exists_container (h : w.Mirrors R m n v)
    (hc : ∀ a ∈ c.references, .container a ∈ w.held) :
    ∃ d, c.Mirrors R d ∧ ∀ b ∈ d.references, .container b ∈ v.held := by
  obtain ⟨d, hcd⟩ := Container.exists_mirrors fun a ha =>
    (h.exists_held (hc a ha)).imp fun _ => And.left
  refine ⟨d, hcd, fun b hb => ?_⟩
  obtain ⟨a, hab, ha⟩ := hcd.symm.exists_paired hb
  exact h.held_of_held hab (hc a ha)

end Mirrors

-- Whatever one host does, its mirror image can do as well.
theorem Step.mirrored (hstep : Step w event next) (h : w.Mirrors R m n v) :
    ∃ S other after, Step v other after ∧ (∀ a b, R a b → S a b) ∧ event.Mirrors S other ∧
      next.Mirrors S (event.leaves m) (event.leaves n) after := by
  cases hstep with
  | @create c hc =>
    obtain ⟨d, hcd, hd⟩ := h.exists_container hc
    refine ⟨_, _, _, .create hd, Store.sub_joined, .quiet, ?_, h.store.allocate hcd, ?_⟩
    · exact h.registry.mono Store.sub_joined
    · exact .cons (.container Store.mem_joined) (mirrors_mono Store.sub_joined h.held)
  | @alloc c handle r hc hregister =>
    obtain ⟨d, hcd, hd⟩ := h.exists_container hc
    obtain ⟨q, hregisterOther, hregistry⟩ :=
      (h.registry.mono Store.sub_joined).exists_register Store.mem_joined hregister
    refine ⟨_, _, _, .alloc hd hregisterOther, Store.sub_joined, .issued Store.mem_joined,
      hregistry, h.store.allocate hcd, ?_⟩
    exact .cons (.container Store.mem_joined) (mirrors_mono Store.sub_joined h.held)
  | @allocRefused c kept error r hc hkept hregister =>
    obtain ⟨d, hcd, hd⟩ := h.exists_container hc
    obtain ⟨others, hothers⟩ := h.exists_kept hkept
    obtain ⟨q, hregisterOther, hregistry⟩ :=
      (h.registry.mono Store.sub_joined).exists_register Store.mem_joined hregister
    exact ⟨_, _, _, .allocRefused hd (h.held_of_forall₂ hkept hothers) hregisterOther,
      Store.sub_joined, .quiet, hregistry,
      (h.store.allocate hcd).release (mirrors_mono Store.sub_joined hothers),
      mirrors_mono Store.sub_joined hothers⟩
  | @register a handle r ha hregister =>
    obtain ⟨b, hab, hb⟩ := h.exists_held ha
    obtain ⟨q, hregisterOther, hregistry⟩ := h.registry.exists_register hab hregister
    exact ⟨R, _, _, .register hb hregisterOther, fun _ _ => id, .issued hab, hregistry, h.store,
      h.held⟩
  | @registerRefused a error r ha hregister =>
    obtain ⟨b, hab, hb⟩ := h.exists_held ha
    obtain ⟨q, hregisterOther, hregistry⟩ := h.registry.exists_register hab hregister
    exact ⟨R, _, _, .registerRefused hb hregisterOther, fun _ _ => id, .quiet, hregistry, h.store,
      h.held⟩
  | @write a c final given ha hfind hgiven hwrites =>
    obtain ⟨b, hab, hb⟩ := h.exists_held ha
    obtain ⟨d, hfindOther, hcd⟩ := h.store.exists_find? hab hfind
    have hpaired : ∀ v ∈ given, ∃ w, v.Mirrors R w := fun v hv =>
      Value.exists_mirrors fun x hx =>
        (h.exists_held (hgiven x (hx ▸ hv))).imp fun _ => And.left
    obtain ⟨others, finalOther, hwritesOther, hothers, hfinal⟩ := hwrites.mirrored hcd hpaired
    have hput := h.store.put hab (Store.lives_iff.mpr ⟨c, hfind⟩) hfinal
    exact ⟨R, _, _, .write hb hfindOther (h.held_of_forall₂ hgiven hothers) hwritesOther,
      fun _ _ => id, .quiet, h.registry, hput.release h.held, h.held⟩
  | @take a x ha hx =>
    obtain ⟨b, hab, hb⟩ := h.exists_held ha
    obtain ⟨y, hy, hxy⟩ := exists_mem_of_forall₂ (h.store.children hab) hx
    exact ⟨R, _, _, .take hb hy, fun _ _ => id, .quiet, h.registry, h.store, .cons hxy h.held⟩
  | @resolve handle x hget =>
    have hresolved := h.registry.get? h.store handle
    rw [hget] at hresolved
    obtain ⟨y, hgetOther, hxy⟩ : ∃ y, v.registry.get? v.store handle = some y ∧ x.Mirrors R y := by
      generalize v.registry.get? v.store handle = answer at hresolved
      cases hresolved with
      | some hxy => exact ⟨_, rfl, hxy⟩
    exact ⟨R, _, _, .resolve hgetOther, fun _ _ => id, .quiet, h.registry, h.store,
      .cons hxy h.held⟩
  | @drop kept hkept =>
    obtain ⟨others, hothers⟩ := h.exists_kept hkept
    exact ⟨R, _, _, .drop (h.held_of_forall₂ hkept hothers), fun _ _ => id, .quiet, h.registry,
      h.store.release hothers, hothers⟩
  | @collect roots stats r t hroots hcollect =>
    obtain ⟨others, hothers⟩ := h.exists_kept hroots
    rw [Registry.collect_eq] at hcollect
    cases hcollect
    have hswept := h.registry.swept h.store hothers h.held
    have hrecycled := h.registry.recycle hswept
    refine ⟨R, _, _, .collect (h.held_of_forall₂ hroots hothers) (Registry.collect_eq ..),
      fun _ _ => id, ?_, { hrecycled with count := rfl }, hswept, h.held⟩
    rw [h.registry.deadSlots_eq hswept]
    exact .recycled _

-- What is left of a difference between two counts after all that happened.
def leaves (n : Nat) : List Event → Nat
  | [] => n
  | event :: earlier => event.leaves (leaves n earlier)

-- A run goes on from the mirror image of a host as it does from the host.
theorem Run.mirrored {later : List Event} {x : Host} (hrun : Run w later x)
    (h : w.Mirrors R m n v) : ∃ S other y, Run v other y ∧ (∀ a b, R a b → S a b) ∧
      List.Forall₂ (Event.Mirrors S) later other ∧
      x.Mirrors S (leaves m later) (leaves n later) y := by
  induction hrun with
  | start => exact ⟨R, [], v, .start, fun _ _ => id, .nil, h⟩
  | step _ hstep ih =>
    obtain ⟨S, other, y, hother, hsub, hevents, hxy⟩ := ih
    obtain ⟨T, event, next, hnext, hsubNext, hevent, hmirrors⟩ := hstep.mirrored hxy
    have hevents' := hevents.imp fun _ _ => Event.Mirrors.mono hsubNext
    exact ⟨T, event :: other, next, .step hother hnext, fun a b hab => hsubNext a b (hsub a b hab),
      .cons hevent hevents', hmirrors⟩

end Host

end Conductor
