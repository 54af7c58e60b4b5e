import Conductor.Proofs.Registry.Handles

namespace Conductor

namespace Registry

-- Recycling takes no slot from a container that lives.
theorem residents_recycle (r : Registry) (s : Store) :
    (r.recycle s).residents s = r.residents s := by
  have hslot (slot : Slot) :
      (if slot.isDead s then ⟨slot.generation + 1, none⟩ else slot).resident? s =
        slot.resident? s := by
    split
    · rename_i hdead
      obtain ⟨a, ha, hgone⟩ := Slot.isDead_iff.mp hdead
      rw [Slot.resident?_of_some ha, if_neg hgone]
      rfl
    · rfl
  simp only [residents, recycle, Array.toList_map, List.filterMap_map]
  exact List.filterMap_congr fun slot _ => hslot slot

theorem deadSlots_recycle (r : Registry) (s : Store) : (r.recycle s).deadSlots s = [] := by
  refine List.eq_nil_iff_forall_not_mem.mpr fun i hi => ?_
  obtain ⟨slot, hslot, hdead⟩ := mem_deadSlots_iff.mp hi
  rw [getElem?_recycle] at hslot
  obtain ⟨before, _, rfl⟩ := Option.map_eq_some_iff.mp hslot
  split at hdead
  · cases hdead
  · rename_i halive
    exact halive hdead

-- What a collection has to know to get at all garbage. A root is a value that is held, so its
-- container lives.
structure Overseen (r : Registry) (s : Store) (roots held : List Value) : Prop where
  registered : ∀ a, s.Lives a → r.Remembers a
  reported : ∀ a, .container a ∈ held → .container a ∈ roots
  rooted : ∀ a, .container a ∈ roots → s.Lives a

variable {r : Registry} {s : Store} {roots held : List Value} {a b : Address}

theorem reached_swept_iff :
    (r.swept s roots held).Reached roots a ↔ s.Reached roots a :=
  Store.reached_agree (fun _ hb => find?_swept_of_reached hb) a

-- What the roots do not reach only holds on to its sample once the collection has emptied it.
theorem Overseen.index_lt (h : r.Overseen s roots held) (hsamples : s.SamplesOlder)
    (hloose : ¬s.Reached roots a) (hrefers : (r.swept s roots held).Refers a b) :
    b.index < a.index := by
  obtain ⟨c, hfind, hb⟩ := Store.exists_find?_of_refers hrefers
  have hlives := lives_of_lives_swept (Store.lives_iff.mpr ⟨c, hfind⟩)
  have hgarbage : a ∈ r.garbage s roots :=
    mem_garbage_iff.mpr ⟨h.registered a hlives, hlives, hloose⟩
  have hemptied := Store.release_extends _ _ a c hfind
  rw [Store.find?_emptied, if_pos hgarbage] at hemptied
  obtain ⟨d, hd, rfl⟩ := Option.map_eq_some_iff.mp hemptied
  exact hsamples a d hd b (Container.mem_references_clear.mp hb)

theorem Overseen.lives_swept_iff (h : r.Overseen s roots held) (hclosed : s.Closed)
    (hsamples : s.SamplesOlder) : (r.swept s roots held).Lives a ↔ s.Reached roots a := by
  have hroots : ∀ b, .container b ∈ roots ++ held → .container b ∈ roots :=
    fun b hb => (List.mem_append.mp hb).elim id (h.reported b)
  constructor
  · intro hlives
    have hsettled : (r.swept s roots held).Settled (roots ++ held) := Store.settled_release _ _
    have hreached := hsettled.reached (fun b c hloose hrefers => ?_) hlives
    · exact reached_swept_iff.mp (hreached.of_subset hroots)
    · refine h.index_lt hsamples (fun hb => hloose ?_) hrefers
      exact (reached_swept_iff.mpr hb).of_subset fun _ => List.mem_append_left _
  · intro hreached
    rw [Store.Lives, find?_swept_of_reached hreached]
    exact hclosed.lives_of_reached h.rooted hreached

theorem Overseen.residents_swept (h : r.Overseen s roots held) (hclosed : s.Closed)
    (hsamples : s.SamplesOlder) : r.residents (r.swept s roots held) = r.reachable s roots := by
  have hslot (slot : Slot) : slot.resident? (r.swept s roots held) =
      (slot.resident? s).filter fun a => decide (a ∈ s.reach roots) := by
    refine Option.ext fun a => ?_
    rw [Slot.resident?_eq_some_iff, h.lives_swept_iff hclosed hsamples, Option.filter_eq_some_iff,
      Slot.resident?_eq_some_iff, and_assoc]
    refine and_congr_right fun _ => ?_
    constructor
    · intro hreached
      have hlives := hclosed.lives_of_reached h.rooted hreached
      exact ⟨hlives, decide_eq_true ((Store.mem_reach_iff_of_lives hlives).mpr hreached)⟩
    · rintro ⟨hlives, hmarked⟩
      exact (Store.mem_reach_iff_of_lives hlives).mp (of_decide_eq_true hmarked)
  rw [reachable, residents, residents, List.filter_filterMap]
  exact List.filterMap_congr fun slot _ => hslot slot

-- Nothing is left for a second collection.
theorem Overseen.collect_again (h : r.Overseen s roots held) (hclosed : s.Closed)
    (hsamples : s.SamplesOlder) :
    ({ r.recycle (r.swept s roots held) with sinceCollect := 0 }.collect
      (r.swept s roots held) roots held).1 = ⟨(r.reachable s roots).length, 0, 0⟩ := by
  let t := r.swept s roots held
  let after : Registry := { r.recycle t with sinceCollect := 0 }
  have hreached : ∀ a, t.Lives a → t.Reached roots a := fun a hlives =>
    reached_swept_iff.mpr ((h.lives_swept_iff hclosed hsamples).mp hlives)
  have hresidents : after.residents t = r.reachable s roots :=
    (residents_recycle r t).trans (h.residents_swept hclosed hsamples)
  have hreachable : after.reachable t roots = after.residents t := by
    refine List.filter_eq_self.mpr fun a ha => ?_
    obtain ⟨_, hlives⟩ := mem_residents_iff.mp ha
    exact decide_eq_true ((Store.mem_reach_iff_of_lives hlives).mpr (hreached a hlives))
  have hgarbage : after.garbage t roots = [] := by
    refine List.eq_nil_iff_forall_not_mem.mpr fun a ha => ?_
    obtain ⟨_, hlives, hloose⟩ := mem_garbage_iff.mp ha
    exact hloose (hreached a hlives)
  have hswept : after.swept t roots held = t := by
    rw [swept, hgarbage]
    exact Store.release_of_settled (Store.settled_release _ _)
  have hdead : after.deadSlots t = [] := deadSlots_recycle r t
  rw [collect_eq, hreachable, hresidents, hgarbage, hswept, hdead]
  rfl

end Registry

namespace Host

open Registry

-- A collection that sees everything leaves what the roots reach and nothing else, and makes every
-- other handle stale.
theorem collect_complete {settings : RegistrySettings} {r : Registry} {history : List Event}
    {w : Host} {roots : List Value} (hnew : Registry.new settings = .ok r)
    (hrun : Run (start r) history w) (hseen : w.registry.Overseen w.store roots w.held) :
    ∃ stats after t, w.registry.collect w.store roots w.held = (stats, after, t) ∧
      (∀ a, t.Lives a ↔ w.store.Reached roots a) ∧
      (∀ later earlier handle a, history = later ++ .issued handle a :: earlier →
        ¬w.store.Reached roots a →
        w.store.Lives a ∨ recyclings handle.index later + 1 < UInt32.size →
        after.get? t handle = none) ∧
      after.live t = stats.live ∧
      (after.collect t roots w.held).1 = ⟨stats.live, 0, 0⟩ := by
  obtain ⟨_, hclosed, hsamples⟩ := hrun.intact
  refine ⟨_, _, _, w.registry.collect_eq w.store roots w.held,
    fun a => hseen.lives_swept_iff hclosed hsamples, ?_, ?_, hseen.collect_again hclosed hsamples⟩
  · rintro later earlier handle a rfl hloose hcase
    have hfollows := hrun.follows hnew
    have htracks := hfollows.tracks.recycle (w.registry.swept w.store roots w.held)
    refine htracks.get?_of_gone ?_ fun hlives =>
      hloose ((hseen.lives_swept_iff hclosed hsamples).mp hlives)
    -- A slot is recycled once at most, and not before its container is gone.
    have honce := List.nodup_iff_count.mp
      (w.registry.nodup_deadSlots (w.registry.swept w.store roots w.held)) handle.index
    have hnever : w.store.Lives a → recyclings handle.index later = 0 := fun hlives =>
      Nat.eq_zero_of_not_pos fun hpos => hfollows.gone hpos hlives
    have hsize : UInt32.size = 2 ^ 32 := rfl
    rcases hcase with hlives | hfew
    · have hzero := hnever hlives
      omega
    · omega
  · have hresidents := hseen.residents_swept hclosed hsamples
    rw [← residents_recycle] at hresidents
    exact congrArg List.length hresidents

-- Two lists in a ring, of which one holds the other as its sample, and one list that is held. The
-- first list is registered twice.
def ringStore : Store :=
  ⟨#[some (.list { element := .any, items := [.container ⟨1⟩], modified := true }),
    some (.list { element := .list, sample := some (.container ⟨0⟩) }),
    some (.list { element := .any })]⟩

def ring : Host where
  registry :=
    { settings := {}, slots := #[⟨0, some ⟨0⟩⟩, ⟨0, some ⟨1⟩⟩, ⟨0, some ⟨0⟩⟩, ⟨0, some ⟨2⟩⟩],
      sinceCollect := 4 }
  store := ringStore
  held := [.container ⟨2⟩]

def ringHistory : List Event :=
  [.quiet, .issued ⟨3, 0⟩ ⟨2⟩, .issued ⟨2, 0⟩ ⟨0⟩, .quiet, .issued ⟨1, 0⟩ ⟨1⟩, .issued ⟨0, 0⟩ ⟨0⟩]

theorem run_ring : Run (start .initial) ringHistory ring := by
  let first : Container := .list { element := .any }
  let second : Container := .list { element := .list, sample := some (.container ⟨0⟩) }
  let lists : Store := ⟨ringStore.cells.take 2⟩
  have hlists : lists.release [.container ⟨1⟩, .container ⟨0⟩] = lists := by
    refine Store.release_of_settled fun a c hfind => .inl ?_
    obtain ⟨_ | _ | i⟩ := a
    · exact List.mem_cons_of_mem _ List.mem_cons_self
    · exact List.mem_cons_self
    · simp [lists, ringStore, Store.find?] at hfind
  have hring : ringStore.release [.container ⟨2⟩] = ringStore := by
    refine Store.release_of_settled fun a c hfind => ?_
    obtain ⟨_ | _ | _ | i⟩ := a
    · exact .inr ⟨⟨1⟩, List.mem_singleton_self _⟩
    · exact .inr ⟨⟨0⟩, List.mem_singleton_self _⟩
    · exact .inl List.mem_cons_self
    · simp [ringStore, Store.find?] at hfind
  have hfirst : Run (start .initial) [.issued ⟨0, 0⟩ ⟨0⟩]
      ⟨{ settings := {}, slots := #[⟨0, some ⟨0⟩⟩], sinceCollect := 1 }, ⟨#[some first]⟩,
        [.container ⟨0⟩]⟩ :=
    .step .start (.alloc (c := first) (fun b hb => absurd hb List.not_mem_nil) rfl)
  have hsecond : Run (start .initial) [.issued ⟨1, 0⟩ ⟨1⟩, .issued ⟨0, 0⟩ ⟨0⟩]
      ⟨{ settings := {}, slots := #[⟨0, some ⟨0⟩⟩, ⟨0, some ⟨1⟩⟩], sinceCollect := 2 },
        ⟨#[some first, some second]⟩, [.container ⟨1⟩, .container ⟨0⟩]⟩ :=
    hfirst.step
      (.alloc (c := second) (fun b hb => List.mem_singleton.mp hb ▸ List.mem_cons_self) rfl)
  have hwritten : Run (start .initial) [.quiet, .issued ⟨1, 0⟩ ⟨1⟩, .issued ⟨0, 0⟩ ⟨0⟩]
      ⟨{ settings := {}, slots := #[⟨0, some ⟨0⟩⟩, ⟨0, some ⟨1⟩⟩], sinceCollect := 2 },
        lists, [.container ⟨1⟩, .container ⟨0⟩]⟩ :=
    hlists ▸ hsecond.step (.write (a := ⟨0⟩) (List.mem_cons_of_mem _ List.mem_cons_self) rfl
      (fun b hb => List.mem_singleton.mp hb ▸ List.mem_cons_self)
      (.append { element := .any } (.container ⟨1⟩)))
  have hagain := hwritten.step
    (.register (a := ⟨0⟩) (List.mem_cons_of_mem _ List.mem_cons_self) rfl)
  have hthird := hagain.step
    (.alloc (c := first) (fun b hb => absurd hb List.not_mem_nil) rfl)
  have hdropped : Run (start .initial) ringHistory
      { ring with store := ringStore.release [.container ⟨2⟩] } :=
    hthird.step (.drop fun b hb => List.mem_singleton.mp hb ▸ List.mem_cons_self)
  rw [hring] at hdropped
  exact hdropped

-- The host that holds the third list reaches nothing else.
theorem reached_ring_iff {a : Address} : ringStore.Reached [.container ⟨2⟩] a ↔ a = ⟨2⟩ := by
  constructor
  · intro h
    refine h.induct (fun b hb => Value.container.inj (List.mem_singleton.mp hb)) ?_
    rintro b c _ rfl hrefers
    cases hrefers
  · rintro rfl
    exact Store.reached_of_mem List.mem_cons_self

theorem overseen_ring : ring.registry.Overseen ring.store [.container ⟨2⟩] ring.held := by
  refine ⟨fun a hlives => ?_, fun a ha => ha, fun a ha => ?_⟩
  · obtain ⟨_ | _ | _ | i⟩ := a
    · exact ⟨⟨0, some ⟨0⟩⟩, by simp [ring], rfl⟩
    · exact ⟨⟨0, some ⟨1⟩⟩, by simp [ring], rfl⟩
    · exact ⟨⟨0, some ⟨2⟩⟩, by simp [ring], rfl⟩
    · simp [ring, ringStore, Store.Lives, Store.find?] at hlives
  · rw [Value.container.inj (List.mem_singleton.mp ha)]
    rfl

theorem collect_complete_ring : ∃ stats after t,
    ring.registry.collect ring.store [.container ⟨2⟩] ring.held = (stats, after, t) ∧
    (∀ a, t.Lives a ↔ a = ⟨2⟩) ∧
    after.get? t ⟨0, 0⟩ = none ∧ after.get? t ⟨1, 0⟩ = none ∧ after.get? t ⟨2, 0⟩ = none ∧
    after.live t = stats.live ∧
    (after.collect t [.container ⟨2⟩] ring.held).1 = ⟨stats.live, 0, 0⟩ := by
  have hnew : Registry.new {} = .ok .initial := rfl
  obtain ⟨stats, after, t, hcollect, hlives, hget, hlive, hagain⟩ :=
    collect_complete hnew run_ring overseen_ring
  have hloose (a : Address) (ha : a ≠ ⟨2⟩) : ¬ring.store.Reached [.container ⟨2⟩] a :=
    fun h => ha (reached_ring_iff.mp h)
  refine ⟨stats, after, t, hcollect, fun a => (hlives a).trans reached_ring_iff, ?_, ?_, ?_,
    hlive, hagain⟩
  · exact hget (ringHistory.take 5) [] ⟨0, 0⟩ ⟨0⟩ rfl (hloose _ (by decide)) (.inl rfl)
  · exact hget (ringHistory.take 4) _ ⟨1, 0⟩ ⟨1⟩ rfl (hloose _ (by decide)) (.inl rfl)
  · exact hget (ringHistory.take 2) _ ⟨2, 0⟩ ⟨0⟩ rfl (hloose _ (by decide)) (.inl rfl)

end Host

end Conductor
