import Conductor.Proofs.Archive.Freezing

namespace Conductor

-- What a scalar comes to, the values that a container goes on with, what it comes to by those, and
-- what it comes to inside itself.
structure Recursion (β : Type) where
  scalar : Value → β
  follow : Container → List Value
  container : (Value → β) → Container → β
  again : Container → β
  inside : ∀ c, ∀ v ∈ follow c, v ∈ c.children
  congr : ∀ c f g, (∀ v ∈ follow c, f v = g v) → container f c = container g c

namespace Store

section Plain

variable {β : Type} {s : Store} {r : Recursion β} {v : Value} {x y : β} {path : List Address}

-- What the plain recursion gives for a value, after it came to an end on all that it goes on with.
inductive Plainly (s : Store) (r : Recursion β) : Value → β → Prop
  | scalar {v : Value} (hv : v.isContainer = false) : Plainly s r v (r.scalar v)
  | container {a : Address} {results : Value → β}
      (h : ∀ v ∈ r.follow (s.fetch a), Plainly s r v (results v)) :
      Plainly s r (.container a) (r.container results (s.fetch a))

theorem Plainly.eq (hx : s.Plainly r v x) (hy : s.Plainly r v y) : x = y := by
  induction hx generalizing y with
  | scalar hv =>
    cases hy with
    | scalar => rfl
    | container => cases hv
  | container _ ih =>
    cases hy with
    | scalar hv => cases hv
    | container hresults => exact r.congr _ _ _ fun v hv => ih v hv (hresults v hv)

theorem Plainly.acyclic (h : s.Plainly r v x) : s.Acyclic r.follow v := by
  induction h with
  | scalar hv => exact acyclic_of_scalar hv
  | container _ ih => exact acyclic_of_inside ih

-- A function that follows the recursion inside the containers of a path and enters none of them
-- again.
structure Guards (s : Store) (r : Recursion β) (f : List Address → Value → β) : Prop where
  scalar : ∀ path v, v.isContainer = false → f path v = r.scalar v
  enter : ∀ path a, s.Enterable path a →
    f path (.container a) = r.container (f (a :: path)) (s.fetch a)
  again : ∀ path, ∀ a ∈ path, f path (.container a) = r.again (s.fetch a)

variable {f : List Address → Value → β}

-- Nothing of the path is met again, so that everything is entered.
theorem Guards.plainly (hf : s.Guards r f) (hheld : s.Held v) (hacyclic : s.Acyclic r.follow v)
    (hnew : ∀ a ∈ path, ¬s.Meets r.follow v a) : s.Plainly r v (f path v) := by
  induction hroom : s.room path using Nat.strong_induction_on generalizing path v with
  | h room ih =>
    cases v with
    | container a =>
      have henter : s.Enterable path a :=
        ⟨index_lt_of_find? hheld.find?_eq, fun hmem => hnew a hmem (meets_self s r.follow a)⟩
      rw [hf.enter path a henter]
      refine .container fun v hv => ?_
      refine ih _ (hroom ▸ room_cons_lt henter) (hheld.of_child (r.inside _ v hv))
        (hacyclic.of_inside hv) (fun b hb hmeets => ?_) rfl
      obtain rfl | hb := List.mem_cons.mp hb
      · exact hacyclic.not_meets hv hmeets
      · exact hnew b hb (meets_container_iff.mpr (.inr ⟨v, hv, hmeets⟩))
    | _ =>
      rw [hf.scalar path _ rfl]
      exact .scalar rfl

-- The guard takes nothing from the values on which the plain recursion comes to an end.
theorem Guards.plainly_iff (hf : s.Guards r f) (hheld : s.Held v) (x : β) :
    s.Plainly r v x ↔ s.Acyclic r.follow v ∧ f [] v = x := by
  have hguarded := fun hacyclic => hf.plainly hheld hacyclic fun a ha => absurd ha List.not_mem_nil
  constructor
  · exact fun h => ⟨h.acyclic, (hguarded h.acyclic).eq h⟩
  · rintro ⟨hacyclic, rfl⟩
    exact hguarded hacyclic

end Plain

section Ending

-- A walk goes on from a container that it is not inside of to what the container holds.
inductive GoesOn (s : Store) : List Address × Value → List Address × Value → Prop
  | enter {path : List Address} {a : Address} {v : Value} (hnew : a ∉ path)
      (hchild : v ∈ (s.fetch a).children) : GoesOn s (path, .container a) (a :: path, v)

theorem index_lt_of_mem_children {s : Store} {a : Address} {v : Value}
    (h : v ∈ (s.fetch a).children) : a.index < s.cells.size := by
  refine Nat.lt_of_not_le fun hsize => ?_
  rw [fetch_of_size_le hsize] at h
  cases h

-- No walk goes on for ever: there is less room at every step.
theorem wellFounded_goesOn (s : Store) : WellFounded fun next now => s.GoesOn now next := by
  refine Subrelation.wf ?_ (measure fun walk : List Address × Value => s.room walk.1).wf
  rintro _ _ ⟨hnew, hchild⟩
  exact room_cons_lt ⟨index_lt_of_mem_children hchild, hnew⟩

end Ending

end Store

end Conductor
