import Conductor.Store.Basic

namespace Conductor.Store

theorem countP_lt_countP {α : Type} {p q : α → Bool} {a : α} {l : List α}
    (hle : ∀ x, p x → q x) (ha : a ∈ l) (hp : p a = false) (hq : q a = true) :
    l.countP p < l.countP q := by
  induction l with
  | nil => cases ha
  | cons head rest ih =>
    have hmono : rest.countP p ≤ rest.countP q := List.countP_mono_left fun x _ => hle x
    cases List.mem_cons.mp ha with
    | inl heq =>
      subst heq
      simp [hp, hq]
      omega
    | inr hmem =>
      have hlt := ih hmem
      have hhead := hle head
      simp only [List.countP_cons]
      cases hph : p head with
      | false =>
        simp only [Bool.false_eq_true, ite_false]
        omega
      | true =>
        simp only [hhead hph, ite_true]
        omega

-- The containers of the store that are not on the path.
def room (s : Store) (path : List Address) : Nat :=
  (List.range s.cells.size).countP fun i => decide (⟨i⟩ ∉ path)

-- A walk may enter the containers of the store that it is not inside of.
def Enterable (s : Store) (path : List Address) (a : Address) : Prop :=
  a.index < s.cells.size ∧ a ∉ path

instance (s : Store) (path : List Address) (a : Address) : Decidable (s.Enterable path a) :=
  inferInstanceAs (Decidable (_ ∧ _))

theorem room_cons_lt {s : Store} {path : List Address} {a : Address} (h : s.Enterable path a) :
    s.room (a :: path) < s.room path := by
  apply countP_lt_countP (a := a.index)
  · intro i hi
    simp only [decide_eq_true_eq, List.mem_cons, not_or] at hi ⊢
    exact hi.2
  · exact List.mem_range.mpr h.1
  · simp
  · simpa using h.2

-- The pairs of containers of the store that are not on a path of pairs.
def pairRoom (s : Store) (path : List (Address × Address)) : Nat :=
  ((List.range s.cells.size).flatMap fun i => (List.range s.cells.size).map fun j => (i, j)).countP
    fun pair => decide ((⟨pair.1⟩, ⟨pair.2⟩) ∉ path)

def EnterablePair (s : Store) (path : List (Address × Address)) (a b : Address) : Prop :=
  a.index < s.cells.size ∧ b.index < s.cells.size ∧ (a, b) ∉ path

instance (s : Store) (path : List (Address × Address)) (a b : Address) :
    Decidable (s.EnterablePair path a b) :=
  inferInstanceAs (Decidable (_ ∧ _ ∧ _))

theorem pairRoom_cons_lt {s : Store} {path : List (Address × Address)} {a b : Address}
    (h : s.EnterablePair path a b) : s.pairRoom ((a, b) :: path) < s.pairRoom path := by
  apply countP_lt_countP (a := (a.index, b.index))
  · intro pair hpair
    simp only [decide_eq_true_eq, List.mem_cons, not_or] at hpair ⊢
    exact hpair.2
  · simp only [List.mem_flatMap, List.mem_range, List.mem_map]
    exact ⟨a.index, h.1, b.index, h.2.1, rfl⟩
  · simp
  · simpa using h.2.2

end Conductor.Store
