import Conductor.Proofs.Store.Reachability

namespace Conductor.Store

variable {s : Store} {roots : List Value}

-- The containers that are marked and those that wait. Which of them is taken, and where the new
-- ones go, is left open.
inductive Marks (s : Store) :
    List Address × List Address → List Address × List Address → Prop
  | skip {seen waiting left : List Address} {a : Address} (htaken : waiting.Perm (a :: left))
      (h : ¬s.Enterable seen a) : Marks s (seen, waiting) (seen, left)
  | enter {seen waiting left next : List Address} {a : Address} (htaken : waiting.Perm (a :: left))
      (h : s.Enterable seen a) (hnext : next.Perm ((s.fetch a).references ++ left)) :
      Marks s (seen, waiting) (a :: seen, next)

-- Each container is marked once, and between two of them the waiting ones become fewer.
theorem wellFounded_marks (s : Store) : WellFounded fun next state => s.Marks state next := by
  refine Subrelation.wf ?_
    (invImage (fun state => (s.room state.1, state.2.length)) Prod.instWellFoundedRelation).wf
  rintro _ _ (⟨htaken, h⟩ | ⟨htaken, h, hnext⟩)
  · refine Prod.Lex.right _ ?_
    have hlength := htaken.length_eq
    rw [List.length_cons] at hlength
    exact Nat.lt_of_succ_le (Nat.le_of_eq hlength.symm)
  · exact Prod.Lex.left _ _ (room_cons_lt h)

-- What is true of the marked and the waiting containers all along.
structure Marking (s : Store) (roots : List Value) (state : List Address × List Address) :
    Prop where
  reached : ∀ a, a ∈ state.1 ∨ a ∈ state.2 → s.Reached roots a
  stored : ∀ a ∈ state.1, a.index < s.cells.size
  root : ∀ a, .container a ∈ roots → a.index < s.cells.size → a ∈ state.1 ∨ a ∈ state.2
  closed : ∀ a ∈ state.1, ∀ b, s.Refers a b → b.index < s.cells.size → b ∈ state.1 ∨ b ∈ state.2

theorem Marking.start (s : Store) (roots : List Value) :
    s.Marking roots ([], roots.filterMap Value.address?) := by
  refine ⟨?_, ?_, ?_, ?_⟩
  · rintro a (h | h)
    · cases h
    · exact reached_of_mem (Value.mem_filterMap_address?.mp h)
  · exact fun a h => absurd h List.not_mem_nil
  · exact fun a h _ => .inr (Value.mem_filterMap_address?.mpr h)
  · exact fun a h => absurd h List.not_mem_nil

theorem Marking.step {state next : List Address × List Address} (h : s.Marking roots state)
    (hstep : s.Marks state next) : s.Marking roots next := by
  cases hstep with
  | @skip seen waiting left a htaken hseen =>
    -- What is dropped from the waiting ones is marked, or no container of the store at all.
    have hkept : ∀ b, b.index < s.cells.size → b ∈ seen ∨ b ∈ waiting → b ∈ seen ∨ b ∈ left := by
      rintro b hsize (hb | hb)
      · exact .inl hb
      · rcases List.mem_cons.mp (htaken.mem_iff.mp hb) with rfl | hb
        · exact .inl (Decidable.byContradiction fun hnew => hseen ⟨hsize, hnew⟩)
        · exact .inr hb
    refine ⟨fun b hb => h.reached b ?_, h.stored,
      fun b hb hsize => hkept b hsize (h.root b hb hsize),
      fun b hb c hrefers hsize => hkept c hsize (h.closed b hb c hrefers hsize)⟩
    exact hb.imp_right fun hb => htaken.mem_iff.mpr (List.mem_cons_of_mem _ hb)
  | @enter seen waiting left next a htaken henter hnext =>
    have hreached : s.Reached roots a := h.reached a (.inr (htaken.mem_iff.mpr List.mem_cons_self))
    have hkept : ∀ b, b ∈ seen ∨ b ∈ waiting → b ∈ a :: seen ∨ b ∈ next := by
      rintro b (hb | hb)
      · exact .inl (List.mem_cons_of_mem _ hb)
      · rcases List.mem_cons.mp (htaken.mem_iff.mp hb) with rfl | hb
        · exact .inl List.mem_cons_self
        · exact .inr (hnext.mem_iff.mpr (List.mem_append_right _ hb))
    refine ⟨?_, ?_, fun b hb hsize => hkept b (h.root b hb hsize), ?_⟩
    · rintro b (hb | hb)
      · rcases List.mem_cons.mp hb with rfl | hb
        · exact hreached
        · exact h.reached b (.inl hb)
      · rcases List.mem_append.mp (hnext.mem_iff.mp hb) with hb | hb
        · exact hreached.of_refers hb
        · exact h.reached b (.inr (htaken.mem_iff.mpr (List.mem_cons_of_mem _ hb)))
    · intro b hb
      rcases List.mem_cons.mp hb with rfl | hb
      · exact henter.1
      · exact h.stored b hb
    · intro b hb c hrefers hsize
      rcases List.mem_cons.mp hb with rfl | hb
      · exact .inr (hnext.mem_iff.mpr (List.mem_append_left _ hrefers))
      · exact hkept c (h.closed b hb c hrefers hsize)

theorem Marking.run {state last : List Address × List Address} (h : s.Marking roots state)
    (hrun : Relation.ReflTransGen s.Marks state last) : s.Marking roots last := by
  induction hrun with
  | refl => exact h
  | tail _ hstep ih => exact ih.step hstep

-- When nothing waits any more, what is marked is what the roots reach.
theorem mem_iff_of_marked {seen : List Address}
    (hrun : Relation.ReflTransGen s.Marks ([], roots.filterMap Value.address?) (seen, []))
    (a : Address) : a ∈ seen ↔ s.Reached roots a ∧ a.index < s.cells.size := by
  obtain ⟨hreached, hstored, hroot, hclosed⟩ := (Marking.start s roots).run hrun
  have hmarked : ∀ b, b ∈ seen ∨ b ∈ [] → b ∈ seen := by simp
  constructor
  · exact fun h => ⟨hreached a (.inl h), hstored a h⟩
  · rintro ⟨h, hsize⟩
    -- A container that holds on to another one is in the store, so a way never leaves it.
    have hall : a.index < s.cells.size → a ∈ seen := by
      refine h.induct (P := fun b => b.index < s.cells.size → b ∈ seen)
        (fun b hb hsize => hmarked b (hroot b hb hsize)) fun b c _ ih hrefers hsize => ?_
      have hb : b ∈ seen := ih (index_lt_of_refers hrefers)
      exact hmarked c (hclosed b hb c hrefers hsize)
    exact hall hsize

-- The collector's own walk is one such loop.
theorem reachFrom_marks (s : Store) (seen waiting : List Address) :
    Relation.ReflTransGen s.Marks (seen, waiting) (s.reachFrom seen waiting, []) := by
  induction seen, waiting using reachFrom.induct s with
  | case1 seen =>
    rw [reachFrom]
  | case2 seen a waiting henter ih =>
    rw [reachFrom, dif_pos henter]
    exact .head (.enter (.refl _) henter (.refl _)) ih
  | case3 seen a waiting hskip ih =>
    rw [reachFrom, dif_neg hskip]
    exact .head (.skip (.refl _) hskip) ih

theorem mem_reach_iff (s : Store) (roots : List Value) (a : Address) :
    a ∈ s.reach roots ↔ s.Reached roots a ∧ a.index < s.cells.size :=
  mem_iff_of_marked (reachFrom_marks s [] _) a

theorem mem_reach_iff_of_lives {a : Address} (h : s.Lives a) :
    a ∈ s.reach roots ↔ s.Reached roots a := by
  obtain ⟨c, hfind⟩ := lives_iff.mp h
  rw [mem_reach_iff]
  exact and_iff_left (index_lt_of_find? hfind)

end Conductor.Store
