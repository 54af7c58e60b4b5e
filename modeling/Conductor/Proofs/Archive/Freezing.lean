import Conductor.Proofs.Archive.Unfolding

namespace Conductor

namespace Store

-- The value reaches no container that reaches itself, and no record of a device.
structure Freezable (s : Store) (v : Value) : Prop where
  acyclic : ∀ a, s.Reaches v a → ¬Relation.TransGen s.Refers a a
  recordless : ∀ a cell d, s.Reaches v a → s.fetch a = .map cell → cell.object ≠ .device d

-- What a value is refused for.
inductive Faulty (s : Store) (v : Value) : FreezeError → Prop
  | cycle {a : Address} (hway : s.Reaches v a) (hcycle : Relation.TransGen s.Refers a a) :
      Faulty s v .cycle
  | record {a : Address} {cell : MapCell} {d : Device} (hway : s.Reaches v a)
      (hfetch : s.fetch a = .map cell) (hobject : cell.object = .device d) :
      Faulty s v (.unrepresentable (.device d))

variable {s : Store} {v : Value} {a b : Address} {path : List Address} {fault : FreezeError}

theorem Faulty.not_freezable (h : s.Faulty v fault) : ¬s.Freezable v := by
  intro hfreezable
  obtain ⟨hway, hcycle⟩ | ⟨hway, hfetch, hobject⟩ := h
  · exact hfreezable.acyclic _ hway hcycle
  · exact hfreezable.recordless _ _ _ hway hfetch hobject

theorem Faulty.of_child (h : s.Faulty v fault) (hchild : v ∈ (s.fetch a).children) :
    s.Faulty (.container a) fault := by
  obtain ⟨hway, hcycle⟩ | ⟨hway, hfetch, hobject⟩ := h
  · exact .cycle (hway.of_child hchild) hcycle
  · exact .record (hway.of_child hchild) hfetch hobject

-- What a container reaches is the container and what its children reach.
theorem reaches_container_iff : s.Reaches (.container a) b ↔
    b = a ∨ ∃ v ∈ (s.fetch a).children, s.Reaches v b := by
  simp only [reaches_iff_meets]
  exact meets_container_iff

theorem freezable_of_scalar (h : v.isContainer = false) : s.Freezable v := by
  refine ⟨acyclic_children_iff.mp (acyclic_of_scalar h), fun a _ _ hway => ?_⟩
  exact absurd (reaches_iff_meets.mp hway) (not_meets_of_scalar h)

theorem freezable_of_children
    (hrecord : ∀ cell d, s.fetch a = .map cell → cell.object ≠ .device d)
    (hchildren : ∀ v ∈ (s.fetch a).children, s.Freezable v) : s.Freezable (.container a) := by
  refine ⟨acyclic_children_iff.mp ?_, fun b cell d hway hfetch => ?_⟩
  · exact acyclic_of_inside fun v hchild => acyclic_children_iff.mpr (hchildren v hchild).acyclic
  · obtain rfl | ⟨v, hchild, hway⟩ := reaches_container_iff.mp hway
    · exact hrecord cell d hfetch
    · exact (hchildren v hchild).recordless b cell d hway hfetch

-- No reference from the value dangles.
def Held (s : Store) (v : Value) : Prop := ∀ a, s.Reaches v a → s.Lives a

theorem Held.of_child (h : s.Held (.container a)) (hchild : v ∈ (s.fetch a).children) : s.Held v :=
  fun b hway => h b (hway.of_child hchild)

theorem Held.find?_eq (h : s.Held (.container a)) : s.find? a = some (s.fetch a) := by
  obtain ⟨c, hfind⟩ := lives_iff.mp (h a (reaches_self s a))
  rw [fetch_of_find? hfind, hfind]

-- The outcome for a child as one for its container.
theorem child_cases {x : Value} {inside : List Address}
    (h : (∃ tree, s.freezeWithin inside x = .ok tree) ∧ s.Freezable x ∨
      ∃ fault, s.freezeWithin inside x = .error fault ∧ s.Faulty x fault)
    (hchild : x ∈ (s.fetch a).children) :
    (∃ tree, s.freezeWithin inside x = .ok tree) ∧ s.Freezable x ∨
      ∃ fault, s.freezeWithin inside x = .error fault ∧ s.Faulty (.container a) fault :=
  h.imp_right fun ⟨fault, hfault, hfaulty⟩ => ⟨fault, hfault, hfaulty.of_child hchild⟩

theorem freezeWithin_cases (hheld : s.Held v) (habove : s.Above path v) :
    (∃ tree, s.freezeWithin path v = .ok tree) ∧ s.Freezable v ∨
      ∃ fault, s.freezeWithin path v = .error fault ∧ s.Faulty v fault := by
  induction path, v using freezeWithin.induct s with
  | case1 path => exact .inl ⟨⟨_, by rw [freezeWithin]⟩, freezable_of_scalar rfl⟩
  | case2 path b => exact .inl ⟨⟨_, by rw [freezeWithin]⟩, freezable_of_scalar rfl⟩
  | case3 path n => exact .inl ⟨⟨_, by rw [freezeWithin]⟩, freezable_of_scalar rfl⟩
  | case4 path x => exact .inl ⟨⟨_, by rw [freezeWithin]⟩, freezable_of_scalar rfl⟩
  | case5 path text => exact .inl ⟨⟨_, by rw [freezeWithin]⟩, freezable_of_scalar rfl⟩
  | case6 path a henter cell hfetch ih =>
    have hchild :=
      fun x hmem => child_cases (ih x (hheld.of_child hmem) (habove.of_child hmem)) hmem
    rw [freezeWithin, dif_pos henter, hfetch]
    rw [hfetch] at hchild
    obtain ⟨⟨sample, hsampleOk⟩, hsample⟩ | ⟨fault, hfault, hfaulty⟩ := mapM_cases
      cell.sample.toList fun x hmem => hchild x (List.mem_append_left _ hmem)
    · obtain ⟨⟨items, hitemsOk⟩, hitems⟩ | ⟨fault, hfault, hfaulty⟩ := mapM_cases
        cell.items fun x hmem => hchild x (List.mem_append_right _ hmem)
      · simp only [hsampleOk, hitemsOk]
        refine .inl ⟨⟨_, rfl⟩, freezable_of_children (fun _ _ hmap => ?_) fun x hmem => ?_⟩
        · rw [hfetch] at hmap
          cases hmap
        · rw [hfetch] at hmem
          obtain hmem | hmem := List.mem_append.mp hmem
          · exact hsample x hmem
          · exact hitems x hmem
      · simp only [hsampleOk, hfault]
        exact .inr ⟨fault, rfl, hfaulty⟩
    · simp only [hfault]
      exact .inr ⟨fault, rfl, hfaulty⟩
  | case7 path a henter cell hfetch d hobject =>
    refine .inr ⟨.unrepresentable (.device d), ?_, .record (reaches_self s a) hfetch hobject⟩
    rw [freezeWithin, dif_pos henter, hfetch]
    simp only [hobject]
  | case8 path a henter cell hfetch hplain _ ih =>
    have hchild :=
      fun x hmem => child_cases (ih x (hheld.of_child hmem) (habove.of_child hmem)) hmem
    rw [freezeWithin, dif_pos henter, hfetch]
    rw [hfetch] at hchild
    have hentry : ∀ entry ∈ cell.entries.toList,
        (∃ node, (do return (entry.1, ← s.freezeWithin (a :: path) entry.2)) = .ok node) ∧
            s.Freezable entry.2 ∨
          ∃ fault, (do return (entry.1, ← s.freezeWithin (a :: path) entry.2)) = .error fault ∧
            s.Faulty (.container a) fault := by
      intro entry hmem
      obtain ⟨⟨tree, hok⟩, hfreezable⟩ | ⟨fault, hfault, hfaulty⟩ :=
        hchild entry.2 (List.mem_append_right _ (List.mem_map_of_mem hmem))
      · exact .inl ⟨⟨(entry.1, tree), by rw [hok]; rfl⟩, hfreezable⟩
      · exact .inr ⟨fault, by rw [hfault]; rfl, hfaulty⟩
    obtain ⟨⟨entries, hentriesOk⟩, hentries⟩ | ⟨fault, hfault, hfaulty⟩ :=
      mapM_cases cell.entries.toList hentry
    · obtain ⟨⟨sample, hsampleOk⟩, hsample⟩ | ⟨fault, hfault, hfaulty⟩ := mapM_cases
        (Container.map cell).sample fun x hmem => hchild x (List.mem_append_left _ hmem)
      · simp only [hentriesOk, hsampleOk]
        refine .inl ⟨⟨_, rfl⟩, freezable_of_children (fun _ d hmap => ?_) fun x hmem => ?_⟩
        · rw [hfetch] at hmap
          cases hmap
          exact hplain d
        · rw [hfetch] at hmem
          obtain hmem | hmem := List.mem_append.mp hmem
          · exact hsample x hmem
          · obtain ⟨entry, hentry, rfl⟩ := List.mem_map.mp hmem
            exact hentries entry hentry
      · simp only [hentriesOk, hfault]
        exact .inr ⟨fault, rfl, hfaulty⟩
    · simp only [hfault]
      exact .inr ⟨fault, rfl, hfaulty⟩
  | case9 path a henter =>
    have hmem : a ∈ path := by
      by_contra hnew
      exact henter ⟨index_lt_of_find? hheld.find?_eq, hnew⟩
    refine .inr ⟨.cycle, by rw [freezeWithin, dif_neg henter], .cycle (reaches_self s a) ?_⟩
    exact habove a hmem a rfl

-- A value is frozen when there is nothing to refuse it for, and else it is refused for that.
theorem freeze_cases (hheld : s.Held v) :
    (∃ tree, s.freeze v = .ok tree) ∧ s.Freezable v ∨
      ∃ fault, s.freeze v = .error fault ∧ s.Faulty v fault :=
  freezeWithin_cases hheld fun _ hmem => by cases hmem

theorem fault_emission_cases (hheld : s.Held v) :
    (s.emission v).fault = none ∧ s.Freezable v ∨
      ∃ fault, (s.emission v).fault = some fault ∧ s.Faulty v fault := by
  rw [emission]
  obtain ⟨⟨tree, htree⟩, hfreezable⟩ | ⟨fault, hfault, hfaulty⟩ := freeze_cases hheld
  · rw [htree]
    exact .inl ⟨rfl, hfreezable⟩
  · rw [hfault]
    exact .inr ⟨fault, rfl, hfaulty⟩

theorem unharmed_of_freezable (hheld : s.Held v) (h : s.Freezable v) :
    (s.emission v).fault = none := by
  obtain ⟨hnone, _⟩ | ⟨_, _, hfaulty⟩ := fault_emission_cases hheld
  · exact hnone
  · exact absurd h hfaulty.not_freezable

end Store

end Conductor
