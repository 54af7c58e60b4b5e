import Conductor.Proofs.Store.Compatibility
import Mathlib.Data.List.Zip

namespace Conductor.Store

variable {s : Store} {v w : Value} {p q : Value × Value}

theorem agree_comm (h : s.Agree v w) : s.Agree w v := by
  cases v with
  | container a =>
    cases w with
    | container b =>
      obtain ⟨hobject, hkey, helement⟩ := h
      exact ⟨hobject.symm, Tag.compatible_comm _ _ ▸ hkey, Tag.compatible_comm _ _ ▸ helement⟩
    | _ => exact h.elim
  | _ =>
    cases w with
    | container b => exact h.elim
    | _ => exact h.imp Eq.symm And.symm

theorem leadsTo_swap (h : s.LeadsTo p q) : s.LeadsTo p.swap q.swap := by
  obtain ⟨h⟩ := h
  refine .inside ?_
  rw [← List.zip_swap]
  exact List.mem_map_of_mem h

-- A pair is off a path exactly when the swapped pair is off the swapped path.
theorem leadsOff_swap {path : List (Address × Address)} (h : s.LeadsOff path p q) :
    s.LeadsOff (path.map Prod.swap) p.swap q.swap := by
  refine ⟨leadsTo_swap h.1, fun a b hp hmem => ?_⟩
  have hback : p = (.container b, .container a) := by rw [← p.swap_swap, hp, Prod.swap_prod_mk]
  obtain ⟨⟨c, d⟩, hpair, heq⟩ := List.mem_map.mp hmem
  cases heq
  exact h.2 _ _ hback hpair

theorem compatibleWithin_of_swap {path : List (Address × Address)}
    (h : s.compatibleWithin path v w = true) :
    s.compatibleWithin (path.map Prod.swap) w v = true := by
  rw [compatibleWithin_iff] at h ⊢
  intro q hway
  have hmirrored := hway.lift Prod.swap fun _ _ => leadsOff_swap
  have hpath : (path.map Prod.swap).map Prod.swap = path := by simp
  rw [hpath] at hmirrored
  exact agree_comm (h q.swap hmirrored)

-- Under way, the comparison the other way round has the swapped pairs on its path.
theorem compatibleWithin_swap (s : Store) (path : List (Address × Address)) (v w : Value) :
    s.compatibleWithin (path.map Prod.swap) w v = s.compatibleWithin path v w := by
  refine Bool.eq_iff_iff.mpr ⟨fun h => ?_, compatibleWithin_of_swap⟩
  simpa using compatibleWithin_of_swap h

-- The order of two values does not count.
theorem compatible_comm (s : Store) (v w : Value) : s.compatible v w = s.compatible w v :=
  compatibleWithin_swap s [] w v

theorem compatible_self (s : Store) (v : Value) : s.compatible v v = true :=
  (compatibleWithin_iff s [] v v).mpr fun _ => agree_of_reached_self

-- On every store, with whatever types its maps have and however its containers hold one another,
-- compatibility is reflexive and symmetric.
theorem compatible_reflexive_symmetric (s : Store) (v w : Value) :
    s.compatible v v = true ∧ s.compatible v w = s.compatible w v :=
  ⟨compatible_self s v, compatible_comm s v w⟩

end Conductor.Store
