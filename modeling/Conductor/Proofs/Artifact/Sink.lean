import Conductor.Artifact.Sink

namespace Conductor

namespace Sink

-- All of the bytes fit.
def Takes (s : Sink) (bytes : Bytes) : Prop :=
  ∀ limit, s.limit = some limit → bytes.length ≤ limit - s.position

theorem position_eq (s : Sink) : s.position = s.bytes.toList.length := rfl

@[simp]
theorem toList_grown (s : Sink) (bytes : Bytes) :
    (s.grown bytes).bytes.toList = s.bytes.toList ++ bytes := Array.toList_appendList

@[simp]
theorem position_grown (s : Sink) (bytes : Bytes) :
    (s.grown bytes).position = s.position + bytes.length := by
  rw [position_eq, position_eq, toList_grown, List.length_append]

theorem rest_grown (s : Sink) (bytes : Bytes) :
    (s.grown bytes).rest = s.rest.drop bytes.length := rfl

theorem ext_toList {s t : Sink} (hbytes : s.bytes.toList = t.bytes.toList)
    (hlimit : s.limit = t.limit) (hrest : s.rest = t.rest) : s = t := by
  cases s
  cases t
  cases hlimit
  cases hrest
  cases Array.toList_inj.mp hbytes
  rfl

theorem grown_grown (s : Sink) (first second : Bytes) :
    (s.grown first).grown second = s.grown (first ++ second) :=
  ext_toList (by simp) rfl (by simp [rest_grown])

theorem takes_append_iff {s : Sink} {first second : Bytes} :
    s.Takes (first ++ second) ↔ s.Takes first ∧ (s.grown first).Takes second := by
  have hlimit : (s.grown first).limit = s.limit := rfl
  simp only [Takes, position_grown, List.length_append, hlimit]
  constructor
  · intro h
    refine ⟨fun limit hlimit => ?_, fun limit hlimit => ?_⟩ <;>
    · have := h limit hlimit
      omega
  · rintro ⟨hfirst, hsecond⟩ limit hlimit
    have := hfirst limit hlimit
    have := hsecond limit hlimit
    omega

theorem room_eq_length_iff {s : Sink} {bytes : Bytes} :
    s.room bytes.length = bytes.length ↔ s.Takes bytes := by
  unfold room Takes
  cases s.limit with
  | none => simp
  | some limit =>
    simp only [Option.some.injEq, forall_eq']
    omega

theorem write_iff {s t : Sink} {bytes : Bytes} :
    s.write bytes = (true, t) ↔ s.Takes bytes ∧ t = s.grown bytes := by
  rw [← room_eq_length_iff, write]
  by_cases h : s.room bytes.length = bytes.length
  · simp only [h, ite_true, true_and, Prod.mk.injEq]
    exact eq_comm
  · simp [h]

theorem limit_overwrite (s : Sink) (position : Nat) (bytes : Bytes) :
    (s.overwrite position bytes).limit = s.limit := by
  induction bytes generalizing s position with
  | nil => rfl
  | cons byte rest ih => rw [overwrite, ih]

theorem rest_overwrite (s : Sink) (position : Nat) (bytes : Bytes) :
    (s.overwrite position bytes).rest = s.rest := by
  induction bytes generalizing s position with
  | nil => rfl
  | cons byte rest ih => rw [overwrite, ih]

theorem toList_overwrite {s : Sink} {front old new back : Bytes} (hlength : old.length = new.length)
    (h : s.bytes.toList = front ++ old ++ back) :
    (s.overwrite front.length new).bytes.toList = front ++ new ++ back := by
  induction new generalizing s front old with
  | nil =>
    obtain rfl := List.length_eq_zero_iff.mp hlength
    exact h
  | cons byte new ih =>
    cases old with
    | nil => cases hlength
    | cons replaced old =>
      have hset : (s.bytes.setIfInBounds front.length byte).toList =
          (front ++ [byte]) ++ old ++ back := by
        rw [Array.toList_setIfInBounds, h]
        simp
      have hnext := ih (s := { s with bytes := s.bytes.setIfInBounds front.length byte })
        (Nat.succ.inj hlength) hset
      rw [List.length_append, List.length_singleton] at hnext
      rw [overwrite, hnext]
      simp

end Sink

end Conductor
