import Conductor.Proofs.Store.Integrity
import Conductor.Proofs.Store.Sketch
import Conductor.Store.Digest

namespace Conductor

open Store

namespace Recursion

variable {digest : Bytes → UInt64}

-- Printing without a path. What a scalar is printed as depends on no store.
def printing : Recursion String where
  scalar := empty.display
  follow := Container.contents
  container print
    | .list cell => "[" ++ ", ".intercalate (cell.items.map print) ++ "]"
    | .map cell =>
      "\x7b" ++ ", ".intercalate (cell.entries.toList.map fun entry =>
        entry.1 ++ " : " ++ print entry.2) ++ "\x7d"
  again := Container.ellipsis
  inside _ _ hv := List.mem_append_right _ hv
  congr c f g h := by
    cases c with
    | list cell =>
      have hitems : cell.items.map f = cell.items.map g := List.map_congr_left h
      simp only [hitems]
    | map cell =>
      simp only
      rw [List.map_congr_left fun entry hentry => ?_]
      rw [h entry.2 (List.mem_map_of_mem hentry)]

-- Hashing without a path.
def hashing (digest : Bytes → UInt64) : Recursion UInt64 where
  scalar := empty.hashWithin digest []
  follow := Container.contents
  container hash
    | .list cell => digest (4 :: cell.items.flatMap fun v => wordBytes (hash v))
    | .map cell =>
      let entries := cell.entries.toList.map fun entry =>
        digest (stringPreimage entry.1 ++ wordBytes (hash entry.2))
      digest (5 :: wordBytes (entries.foldl (· + ·) 0))
  again _ := 0
  inside _ _ hv := List.mem_append_right _ hv
  congr c f g h := by
    cases c with
    | list cell =>
      simp only
      rw [List.flatMap_congr fun v hv => ?_]
      rw [h v hv]
    | map cell =>
      simp only
      rw [List.map_congr_left fun entry hentry => ?_]
      rw [h entry.2 (List.mem_map_of_mem hentry)]

-- Freezing without a path. It goes on with the samples too.
def freezing : Recursion (Except FreezeError Archived) where
  scalar := empty.freeze
  follow := Container.children
  container freeze
    | .list cell => do
      let sample ← cell.sample.toList.mapM freeze
      let items ← cell.items.mapM freeze
      return .list cell.element sample items
    | .map cell =>
      match cell.object with
      | .device d => .error (.unrepresentable (.device d))
      | _ => do
        let entries ← cell.entries.toList.mapM fun entry => do
          return (entry.1, ← freeze entry.2)
        let sample ← (Container.map cell).sample.mapM freeze
        return .map cell.key cell.element sample entries
  again _ := .error .cycle
  inside _ _ hv := hv
  congr c f g h := by
    cases c with
    | list cell =>
      have hsample : cell.sample.toList.mapM f = cell.sample.toList.mapM g :=
        mapM_congr fun v hv => h v (List.mem_append_left _ hv)
      have hitems : cell.items.mapM f = cell.items.mapM g :=
        mapM_congr fun v hv => h v (List.mem_append_right _ hv)
      simp only [hsample, hitems]
    | map cell =>
      simp only
      rw [mapM_congr fun entry hentry => ?_, mapM_congr fun v hv => h v (List.mem_append_left _ hv)]
      rw [h entry.2 (List.mem_append_right _ (List.mem_map_of_mem hentry))]

end Recursion

namespace Store

open Recursion

variable {s : Store} {v : Value} {digest : Bytes → UInt64}

theorem guards_displayWithin (s : Store) : s.Guards printing s.displayWithin where
  scalar path v hv := by
    cases v with
    | container => cases hv
    | _ => simp only [printing, display, displayWithin]
  enter path a henter := by
    rw [displayWithin, dif_pos henter]
    rfl
  again path a hmem := by
    rw [displayWithin, dif_neg fun henter => henter.2 hmem]
    rfl

theorem guards_hashWithin (digest : Bytes → UInt64) (s : Store) :
    s.Guards (hashing digest) (s.hashWithin digest) where
  scalar path v hv := by
    cases v with
    | container => cases hv
    | _ => simp only [hashing, hashWithin]
  enter path a henter := by
    rw [hashWithin, dif_pos henter]
    rfl
  again path a hmem := by
    rw [hashWithin, dif_neg fun henter => henter.2 hmem]
    rfl

theorem guards_freezeWithin (s : Store) : s.Guards freezing s.freezeWithin where
  scalar path v hv := by
    cases v with
    | container => cases hv
    | _ => simp only [freezing, freeze, freezeWithin]
  enter path a henter := by
    rw [freezeWithin, dif_pos henter]
    rfl
  again path a hmem := by
    rw [freezeWithin, dif_neg fun henter => henter.2 hmem]
    rfl

-- A value of a store without dangling references reaches none.
theorem Closed.held (h : s.Closed) (hv : ∀ a, v = .container a → s.Lives a) : s.Held v :=
  fun _ hway => h.lives_of_reached (fun b hb => hv b (List.mem_singleton.mp hb).symm)
    ⟨v, List.mem_singleton_self v, hway⟩

-- Walks end, the paths that they keep are of no account on values without a cycle, and they cut the
-- others short where a container is met inside itself.
theorem guards_invisible_and_sufficient (digest : Bytes → UInt64) (hheld : s.Held v) :
    (s.Guards printing s.displayWithin ∧ s.Guards (hashing digest) (s.hashWithin digest) ∧
      s.Guards freezing s.freezeWithin ∧ WellFounded fun next now => s.GoesOn now next) ∧
    (∀ text, s.Plainly printing v text ↔ s.Acyclic Container.contents v ∧ s.display v = text) ∧
    (∀ word, s.Plainly (hashing digest) v word ↔
      s.Acyclic Container.contents v ∧ s.hashWithin digest [] v = word) ∧
    (∀ outcome, s.Plainly freezing v outcome ↔
      s.Acyclic Container.children v ∧ s.freeze v = outcome) ∧
    (s.sketch v).render = s.display v ∧
    ∀ position text, (s.sketch v).part? position = some (.ellipsis text) ↔
      ∃ above a, s.occurrence? [] position v = some (above, .container a) ∧ above.Nodup ∧
        a ∈ above ∧ (s.fetch a).ellipsis = text :=
  ⟨⟨guards_displayWithin s, guards_hashWithin digest s, guards_freezeWithin s,
      wellFounded_goesOn s⟩,
    (guards_displayWithin s).plainly_iff hheld, (guards_hashWithin digest s).plainly_iff hheld,
    (guards_freezeWithin s).plainly_iff hheld, render_sketch s v,
    fun _ _ => part?_eq_ellipsis_iff hheld⟩

-- A list that is in another one twice, and a list that is in itself.
def knottedStore : Store where
  cells := #[
    some (.list { element := .int, items := [.int 1] }),
    some (.list { element := .list, items := [.container ⟨0⟩, .container ⟨0⟩] }),
    some (.list { element := .any, items := [.int 1, .container ⟨2⟩] })]

theorem closed_knottedStore : knottedStore.Closed := by
  intro a b h
  obtain ⟨c, hfind, hmem⟩ := exists_find?_of_refers h
  obtain ⟨_ | _ | _ | i⟩ := a
  · cases hfind
    cases hmem
  · cases hfind
    obtain rfl | hmem := List.mem_cons.mp hmem
    · rfl
    · rw [List.mem_singleton.mp hmem]
      rfl
  · cases hfind
    rw [List.mem_singleton.mp hmem]
    rfl
  · simp [find?, knottedStore] at hfind

theorem acyclic_knottedStore {follow : Container → List Value}
    (hinner : follow (knottedStore.fetch ⟨0⟩) = [.int 1])
    (houter : follow (knottedStore.fetch ⟨1⟩) = [.container ⟨0⟩, .container ⟨0⟩]) :
    knottedStore.Acyclic follow (.container ⟨1⟩) := by
  have hshared : knottedStore.Acyclic follow (.container ⟨0⟩) := by
    refine acyclic_of_inside fun v hv => acyclic_of_scalar ?_
    rw [hinner] at hv
    rw [List.mem_singleton.mp hv]
    rfl
  refine acyclic_of_inside fun v hv => ?_
  rw [houter] at hv
  obtain rfl | hv := List.mem_cons.mp hv
  · exact hshared
  · rw [List.mem_singleton.mp hv]
    exact hshared

-- What is shared is printed twice, and what is in itself is printed as far as there.
theorem guards_invisible_and_sufficient_knotted :
    knottedStore.Held (.container ⟨1⟩) ∧ knottedStore.Held (.container ⟨2⟩) ∧
      knottedStore.Plainly printing (.container ⟨1⟩) "[[1], [1]]" ∧
      knottedStore.Plainly freezing (.container ⟨1⟩) (knottedStore.freeze (.container ⟨1⟩)) ∧
      (¬∃ text, knottedStore.Plainly printing (.container ⟨2⟩) text) ∧
      (knottedStore.sketch (.container ⟨2⟩)).part? [1] = some (.ellipsis "[...]") := by
  have hshared : knottedStore.Held (.container ⟨1⟩) :=
    closed_knottedStore.held fun a ha => Value.container.inj ha ▸ rfl
  have hknot : knottedStore.Held (.container ⟨2⟩) :=
    closed_knottedStore.held fun a ha => Value.container.inj ha ▸ rfl
  have hcycle : ¬knottedStore.Acyclic Container.contents (.container ⟨2⟩) := fun h =>
    h ⟨2⟩ (meets_self _ _ _) (.single (List.mem_cons_of_mem _ List.mem_cons_self))
  obtain ⟨_, hprinting, _, hfreezing, _⟩ := guards_invisible_and_sufficient SipHash.digest hshared
  obtain ⟨_, hprints, _, _, _, hellipsis⟩ := guards_invisible_and_sufficient SipHash.digest hknot
  refine ⟨hshared, hknot, (hprinting _).mpr ⟨acyclic_knottedStore rfl rfl, by decide +kernel⟩,
    (hfreezing _).mpr ⟨acyclic_knottedStore rfl rfl, rfl⟩, ?_, ?_⟩
  · rintro ⟨text, htext⟩
    exact hcycle ((hprints text).mp htext).1
  · exact (hellipsis [1] _).mpr
      ⟨[⟨2⟩], ⟨2⟩, rfl, List.nodup_singleton _, List.mem_cons_self, rfl⟩

end Store

end Conductor
