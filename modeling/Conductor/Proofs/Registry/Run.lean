import Conductor.Proofs.Registry.Collection
import Conductor.Proofs.Store.Writing

namespace Conductor

namespace Store

-- Addresses are not given out twice: a container that is gone does not come back.
structure Grows (s t : Store) : Prop where
  size_le : s.cells.size ≤ t.cells.size
  lives : ∀ a, t.Lives a → s.Lives a ∨ s.cells.size ≤ a.index

variable {s t u : Store}

theorem Grows.trans (h : s.Grows t) (hnext : t.Grows u) : s.Grows u := by
  refine ⟨Nat.le_trans h.size_le hnext.size_le, fun a hlives => ?_⟩
  rcases hnext.lives a hlives with hold | hfresh
  · exact h.lives a hold
  · exact .inr (Nat.le_trans h.size_le hfresh)

-- Nothing new comes to live.
theorem Grows.of_lives (hsize : t.cells.size = s.cells.size) (h : ∀ a, t.Lives a → s.Lives a) :
    s.Grows t :=
  ⟨Nat.le_of_eq hsize.symm, fun a hlives => .inl (h a hlives)⟩

theorem Grows.refl (s : Store) : s.Grows s := .of_lives rfl fun _ h => h

theorem Grows.allocate (s : Store) (c : Container) : s.Grows (s.allocate c).2 := by
  refine ⟨by simp [Store.allocate], fun a hlives => ?_⟩
  rcases lives_allocate.mp hlives with rfl | hold
  · exact .inr (Nat.le_refl _)
  · exact .inl hold

theorem Grows.put {a : Address} {c after : Container} (hfind : s.find? a = some c) :
    s.Grows (s.put a after) :=
  .of_lives (by simp [Store.put]) fun _ => (lives_put hfind).mp

theorem Grows.emptied (s : Store) (garbage : List Address) : s.Grows (s.emptied garbage) :=
  .of_lives (size_emptied garbage) fun _ => lives_emptied.mp

theorem Grows.release (s : Store) (held : List Value) : s.Grows (s.release held) :=
  .of_lives (size_release s held) fun _ => lives_of_extends (release_extends s held)

end Store

-- The registry, the containers, and the values that the host holds outside of them.
structure Host where
  registry : Registry
  store : Store
  held : List Value

-- What a step hands out or takes back: the handle of a container, or slots that are recycled.
inductive Event where
  | issued (handle : Handle) (a : Address)
  | recycled (slots : List Nat)
  | quiet

namespace Host

def start (r : Registry) : Host := { registry := r, store := .empty, held := [] }

-- One thing that a host does. It only works with containers that it holds, and gets hold of one by
-- making it, out of another one or through a handle. A container lives until nothing holds it, so a
-- step after which something may be loose ends with a release. A new container that is refused goes
-- at once, and the host may have moved values into it that it does not hold any more.
inductive Step : Host → Event → Host → Prop
  | create {w : Host} {c : Container} (hc : ∀ b ∈ c.references, .container b ∈ w.held) :
      Step w .quiet
        { w with
          store := (w.store.allocate c).2
          held := .container (w.store.allocate c).1 :: w.held }
  | alloc {w : Host} {c : Container} {handle : Handle} {r : Registry}
      (hc : ∀ b ∈ c.references, .container b ∈ w.held)
      (hregister : w.registry.register (w.store.allocate c).1 = (.ok handle, r)) :
      Step w (.issued handle (w.store.allocate c).1)
        { registry := r
          store := (w.store.allocate c).2
          held := .container (w.store.allocate c).1 :: w.held }
  | allocRefused {w : Host} {c : Container} {kept : List Value} {error : RegistryError}
      {r : Registry} (hc : ∀ b ∈ c.references, .container b ∈ w.held)
      (hkept : ∀ b, .container b ∈ kept → .container b ∈ w.held)
      (hregister : w.registry.register (w.store.allocate c).1 = (.error error, r)) :
      Step w .quiet
        { registry := r, store := (w.store.allocate c).2.release kept, held := kept }
  | register {w : Host} {a : Address} {handle : Handle} {r : Registry}
      (ha : .container a ∈ w.held) (hregister : w.registry.register a = (.ok handle, r)) :
      Step w (.issued handle a) { w with registry := r }
  | registerRefused {w : Host} {a : Address} {error : RegistryError} {r : Registry}
      (ha : .container a ∈ w.held) (hregister : w.registry.register a = (.error error, r)) :
      Step w .quiet { w with registry := r }
  | write {w : Host} {a : Address} {c after : Container} {given : List Value}
      (ha : .container a ∈ w.held) (hfind : w.store.find? a = some c)
      (hgiven : ∀ b, .container b ∈ given → .container b ∈ w.held)
      (hwrites : c.Writes w.store given after) :
      Step w .quiet { w with store := (w.store.put a after).release w.held }
  | take {w : Host} {a : Address} {v : Value} (ha : .container a ∈ w.held)
      (hv : v ∈ (w.store.fetch a).children) : Step w .quiet { w with held := v :: w.held }
  | resolve {w : Host} {handle : Handle} {v : Value}
      (hget : w.registry.get? w.store handle = some v) :
      Step w .quiet { w with held := v :: w.held }
  | drop {w : Host} {kept : List Value} (hkept : ∀ b, .container b ∈ kept → .container b ∈ w.held) :
      Step w .quiet { w with store := w.store.release kept, held := kept }
  | collect {w : Host} {roots : List Value} {stats : CollectStats} {r : Registry} {t : Store}
      (hroots : ∀ b, .container b ∈ roots → .container b ∈ w.held)
      (hcollect : w.registry.collect w.store roots w.held = (stats, r, t)) :
      Step w (.recycled (w.registry.deadSlots t)) { w with registry := r, store := t }

-- A run from a host and what happened in it, the latest event first.
inductive Run (origin : Host) : List Event → Host → Prop
  | start : Run origin [] origin
  | step {history : List Event} {w next : Host} {event : Event} (h : Run origin history w)
      (hstep : Step w event next) : Run origin (event :: history) next

variable {w next : Host} {event : Event}

theorem Step.intact (hstep : Step w event next) (h : w.store.Intact w.held) :
    next.store.Intact next.held := by
  cases hstep with
  | create hc => exact h.allocate hc
  | alloc hc hregister => exact h.allocate hc
  | allocRefused hc hkept hregister =>
    exact (h.allocate hc).release fun b hb => List.mem_cons_of_mem _ (hkept b hb)
  | register ha hregister => exact h
  | registerRefused ha hregister => exact h
  | @write a c after given ha hfind hgiven hwrites =>
    have hafter : ∀ b ∈ after.references, .container b ∈ w.held ∨ b ∈ c.references :=
      fun b hb => (hwrites.mem_references hb).imp_left (hgiven b)
    exact (h.put hfind hwrites.sameKind.sample hafter).release fun b hb => hb
  | take ha hv => exact h.take hv
  | resolve hget =>
    obtain ⟨_, a, _, _, _, hlives, rfl⟩ := Registry.get?_eq_some_iff.mp hget
    exact h.hold fun b hb => Value.container.inj hb ▸ hlives
  | drop hkept => exact h.release hkept
  | collect hroots hcollect =>
    rw [Registry.collect_eq] at hcollect
    cases hcollect
    exact Registry.intact_swept h hroots

theorem Run.intact {r : Registry} {history : List Event} (h : Run (Host.start r) history w) :
    w.store.Intact w.held := by
  induction h with
  | start => exact .empty
  | step _ hstep ih => exact hstep.intact ih

theorem Step.grows (hstep : Step w event next) : w.store.Grows next.store := by
  cases hstep with
  | create hc => exact .allocate _ _
  | alloc hc hregister => exact .allocate _ _
  | allocRefused hc hkept hregister => exact (Store.Grows.allocate _ _).trans (.release _ _)
  | register ha hregister => exact .refl _
  | registerRefused ha hregister => exact .refl _
  | write ha hfind hgiven hwrites => exact (Store.Grows.put hfind).trans (.release _ _)
  | take ha hv => exact .refl _
  | resolve hget => exact .refl _
  | drop hkept => exact .release _ _
  | collect hroots hcollect =>
    rw [Registry.collect_eq] at hcollect
    cases hcollect
    exact (Store.Grows.emptied _ _).trans (.release _ _)

end Host

end Conductor
