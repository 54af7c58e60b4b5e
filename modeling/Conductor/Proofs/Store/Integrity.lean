import Conductor.Proofs.Store.Release

namespace Conductor

namespace Container

theorem clear_clear (c : Container) : c.clear.clear = c.clear := by cases c <;> rfl

theorem sample_clear (c : Container) : c.clear.sample = c.sample := by cases c <;> rfl

theorem contents_clear (c : Container) : c.clear.contents = [] := by cases c <;> rfl

-- A container without contents holds on to its sample.
theorem mem_references_clear {c : Container} {a : Address} :
    a ∈ c.clear.references ↔ .container a ∈ c.sample := by
  rw [mem_references_iff, sample_clear, contents_clear]
  exact or_iff_left List.not_mem_nil

end Container

namespace Store

variable {s : Store}

theorem find?_modify (a b : Address) (f : Container → Container) :
    (s.modify a f).find? b = if b = a then (s.find? a).map f else s.find? b := by
  cases hfind : s.find? a with
  | none =>
    rw [modify, hfind]
    by_cases hb : b = a
    · rw [if_pos hb, hb, hfind]
      rfl
    · rw [if_neg hb]
  | some c =>
    simp only [modify, hfind]
    exact find?_put (index_lt_of_find? hfind)

theorem size_modify (a : Address) (f : Container → Container) :
    (s.modify a f).cells.size = s.cells.size := by
  rw [modify]
  cases s.find? a <;> simp [put]

-- The store after some of its containers lost their contents.
def emptied (s : Store) (garbage : List Address) : Store :=
  garbage.foldl (fun s a => s.modify a Container.clear) s

theorem find?_emptied (garbage : List Address) (a : Address) :
    (s.emptied garbage).find? a =
      if a ∈ garbage then (s.find? a).map Container.clear else s.find? a := by
  induction garbage generalizing s with
  | nil => rfl
  | cons head rest ih =>
    rw [emptied, List.foldl_cons, ← emptied, ih, find?_modify]
    by_cases hhead : a = head
    · subst hhead
      -- A container that comes twice is cleared twice, which makes no difference.
      have htwice : ((s.find? a).map Container.clear).map Container.clear =
          (s.find? a).map Container.clear := by
        cases s.find? a with
        | none => rfl
        | some c => exact congrArg some c.clear_clear
      simp [htwice]
    · simp [hhead]

theorem size_emptied (garbage : List Address) :
    (s.emptied garbage).cells.size = s.cells.size := by
  induction garbage generalizing s with
  | nil => rfl
  | cons head rest ih => rw [emptied, List.foldl_cons, ← emptied, ih, size_modify]

theorem lives_emptied {garbage : List Address} {a : Address} :
    (s.emptied garbage).Lives a ↔ s.Lives a := by
  rw [Lives, Lives, find?_emptied]
  split <;> simp

-- No reference dangles.
def Closed (s : Store) : Prop := ∀ a b, s.Refers a b → s.Lives b

theorem Closed.lives_of_reached (h : s.Closed) {roots : List Value} {a : Address}
    (hroots : ∀ b, .container b ∈ roots → s.Lives b) (hreached : s.Reached roots a) : s.Lives a :=
  hreached.induct hroots fun b c _ _ hrefers => h b c hrefers

-- A sample is there before its container.
def SamplesOlder (s : Store) : Prop :=
  ∀ a c, s.find? a = some c → ∀ b, .container b ∈ c.sample → b.index < a.index

theorem lives_of_extends {t : Store} (h : s.Extends t) {a : Address} (hlives : s.Lives a) :
    t.Lives a := by
  obtain ⟨c, hfind⟩ := lives_iff.mp hlives
  exact lives_iff.mpr ⟨c, h a c hfind⟩

theorem index_lt_of_lives {a : Address} (h : s.Lives a) : a.index < s.cells.size := by
  obtain ⟨c, hfind⟩ := lives_iff.mp h
  exact index_lt_of_find? hfind

section Allocate

variable {c : Container}

theorem lives_allocate {a : Address} :
    (s.allocate c).2.Lives a ↔ a = (s.allocate c).1 ∨ s.Lives a := by
  rw [Lives, find?_allocate]
  by_cases ha : a = (s.allocate c).1
  · simp [ha]
  · simp [ha, Lives]

theorem Closed.allocate (h : s.Closed) (hc : ∀ b ∈ c.references, s.Lives b) :
    (s.allocate c).2.Closed := by
  intro a b hrefers
  obtain ⟨d, hfind, hb⟩ := exists_find?_of_refers hrefers
  rw [find?_allocate] at hfind
  refine lives_allocate.mpr (.inr ?_)
  split at hfind
  · cases hfind
    exact hc b hb
  · exact h a b (refers_of_find? hfind hb)

theorem SamplesOlder.allocate (h : s.SamplesOlder) (hc : ∀ b ∈ c.references, s.Lives b) :
    (s.allocate c).2.SamplesOlder := by
  intro a d hfind b hb
  rw [find?_allocate] at hfind
  split at hfind
  · rename_i ha
    cases hfind
    have hreference : b ∈ c.references := Container.mem_references_iff.mpr (.inl hb)
    rw [ha]
    exact index_lt_of_lives (hc b hreference)
  · exact h a d hfind b hb

end Allocate

section Put

variable {a : Address} {c after : Container}

theorem lives_put (hfind : s.find? a = some c) {b : Address} :
    (s.put a after).Lives b ↔ s.Lives b := by
  rw [Lives, find?_put (index_lt_of_find? hfind)]
  by_cases hb : b = a
  · simp [hb, Lives, hfind]
  · simp [hb, Lives]

theorem Closed.put (h : s.Closed) (hfind : s.find? a = some c)
    (hafter : ∀ b ∈ after.references, s.Lives b) : (s.put a after).Closed := by
  intro b d hrefers
  obtain ⟨e, hfind', hd⟩ := exists_find?_of_refers hrefers
  rw [find?_put (index_lt_of_find? hfind)] at hfind'
  refine (lives_put hfind).mpr ?_
  split at hfind'
  · cases hfind'
    exact hafter d hd
  · exact h b d (refers_of_find? hfind' hd)

theorem SamplesOlder.put (h : s.SamplesOlder) (hfind : s.find? a = some c)
    (hsample : after.sample = c.sample) : (s.put a after).SamplesOlder := by
  intro b d hfind' e he
  rw [find?_put (index_lt_of_find? hfind)] at hfind'
  split at hfind'
  · rename_i hb
    cases hfind'
    rw [hb]
    exact h a c hfind e (hsample ▸ he)
  · exact h b d hfind' e he

end Put

section Emptied

variable {garbage : List Address}

theorem Closed.emptied (h : s.Closed) : (s.emptied garbage).Closed := by
  intro a b hrefers
  obtain ⟨c, hfind, hb⟩ := exists_find?_of_refers hrefers
  rw [find?_emptied] at hfind
  refine lives_emptied.mpr ?_
  split at hfind
  · obtain ⟨d, hd, rfl⟩ := Option.map_eq_some_iff.mp hfind
    have hsample := Container.mem_references_clear.mp hb
    exact h a b (refers_of_find? hd (Container.mem_references_iff.mpr (.inl hsample)))
  · exact h a b (refers_of_find? hfind hb)

theorem SamplesOlder.emptied (h : s.SamplesOlder) : (s.emptied garbage).SamplesOlder := by
  intro a c hfind b hb
  rw [find?_emptied] at hfind
  split at hfind
  · obtain ⟨d, hd, rfl⟩ := Option.map_eq_some_iff.mp hfind
    rw [Container.sample_clear] at hb
    exact h a d hd b hb
  · exact h a c hfind b hb

end Emptied

-- What a container that stays refers to stays too.
theorem Closed.release (h : s.Closed) (held : List Value) : (s.release held).Closed := by
  intro a b hrefers
  have hextends := release_extends s held
  have hsupported : s.Supported held
      fun x => .container x ∈ held ∨ ∃ y, (s.release held).Refers y x := by
    rintro x (hx | ⟨y, hyx⟩)
    · exact .inl hx
    · obtain ⟨c, hfind, _⟩ := exists_find?_of_refers hyx
      exact .inr ⟨y, settled_release s held y c hfind, hextends.refers hyx⟩
  have hlives := h a b (hextends.refers hrefers)
  have hsame := find?_release_of_supported hsupported (.inr ⟨a, hrefers⟩)
  rw [Lives, hsame]
  exact hlives

theorem SamplesOlder.release (h : s.SamplesOlder) (held : List Value) :
    (s.release held).SamplesOlder :=
  fun a c hfind => h a c (release_extends s held a c hfind)

-- What memory promises to one who holds values outside of the containers.
structure Intact (s : Store) (held : List Value) : Prop where
  held : ∀ a, .container a ∈ held → s.Lives a
  closed : s.Closed
  older : s.SamplesOlder

variable {held : List Value}

theorem Intact.empty : Store.empty.Intact [] := by
  have hempty : ∀ a, Store.empty.find? a = none := fun a => find?_of_size_le (Nat.zero_le _)
  refine ⟨fun a h => absurd h List.not_mem_nil, fun a b h => ?_, fun a c h => ?_⟩
  · obtain ⟨c, hfind, _⟩ := exists_find?_of_refers h
    rw [hempty] at hfind
    cases hfind
  · rw [hempty] at h
    cases h

theorem Intact.allocate (h : s.Intact held) {c : Container}
    (hc : ∀ b ∈ c.references, .container b ∈ held) :
    (s.allocate c).2.Intact (.container (s.allocate c).1 :: held) := by
  have hlives : ∀ b ∈ c.references, s.Lives b := fun b hb => h.held b (hc b hb)
  refine ⟨fun a ha => ?_, h.closed.allocate hlives, h.older.allocate hlives⟩
  rw [lives_allocate]
  rcases List.mem_cons.mp ha with hnew | hold
  · exact .inl (Value.container.inj hnew)
  · exact .inr (h.held a hold)

theorem Intact.put (h : s.Intact held) {a : Address} {c after : Container}
    (hfind : s.find? a = some c) (hsample : after.sample = c.sample)
    (hafter : ∀ b ∈ after.references, .container b ∈ held ∨ b ∈ c.references) :
    (s.put a after).Intact held := by
  have hlives : ∀ b ∈ after.references, s.Lives b := by
    intro b hb
    rcases hafter b hb with hnew | hold
    · exact h.held b hnew
    · exact h.closed a b (refers_of_find? hfind hold)
  exact ⟨fun b hb => (lives_put hfind).mpr (h.held b hb), h.closed.put hfind hlives,
    h.older.put hfind hsample⟩

theorem Intact.hold (h : s.Intact held) {v : Value} (hv : ∀ a, v = .container a → s.Lives a) :
    s.Intact (v :: held) := by
  refine ⟨fun a ha => ?_, h.closed, h.older⟩
  rcases List.mem_cons.mp ha with hnew | hold
  · exact hv a hnew.symm
  · exact h.held a hold

theorem Intact.take (h : s.Intact held) {a : Address} {v : Value}
    (hv : v ∈ (s.fetch a).children) : s.Intact (v :: held) :=
  h.hold fun b hb => h.closed a b (refers_of_mem_children (hb ▸ hv))

theorem Intact.emptied (h : s.Intact held) (garbage : List Address) :
    (s.emptied garbage).Intact held :=
  ⟨fun a ha => lives_emptied.mpr (h.held a ha), h.closed.emptied, h.older.emptied⟩

-- Letting go of values and of what only they held.
theorem Intact.release (h : s.Intact held) {kept : List Value}
    (hkept : ∀ b, .container b ∈ kept → .container b ∈ held) : (s.release kept).Intact kept := by
  refine ⟨fun a ha => ?_, h.closed.release kept, h.older.release kept⟩
  rw [Lives, find?_release_of_held ha]
  exact h.held a (hkept a ha)

end Store

end Conductor
