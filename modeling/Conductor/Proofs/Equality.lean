import Conductor.Proofs.Comparison
import Conductor.Proofs.Numeric.Exact
import Conductor.Store.Digest

namespace Conductor

namespace Value

-- What equal values have in common.
inductive Place where
  | number (q : ℚ)
  | infinity (negative : Bool)
  | other (v : Value)

-- NaN has no place.
def place? : Value → Option Place
  | int n => some (.number n.toInt)
  | float x =>
    if x.isFinite then some (.number x.value)
    else if x.isInfinite then some (.infinity x.negative)
    else none
  | v => some (.other v)

def IsNaN (v : Value) : Prop := ∃ x, v = float x ∧ x.isNaN = true

section Place

variable {a b c : Value} {x y : Double}

-- The three kinds of doubles, by the place of each.
theorem place?_float (x : Double) :
    x.magnitude < Double.infiniteMagnitude ∧ (float x).place? = some (.number x.value) ∨
      x.magnitude = Double.infiniteMagnitude ∧ (float x).place? = some (.infinity x.negative) ∨
      Double.infiniteMagnitude < x.magnitude ∧ (float x).place? = none := by
  simp only [place?, Double.isFinite, Double.isInfinite, decide_eq_true_eq]
  split
  · exact .inl ⟨by assumption, rfl⟩
  split
  · exact .inr (.inl ⟨by assumption, rfl⟩)
  · exact .inr (.inr ⟨by omega, rfl⟩)

theorem place?_eq_none_iff : a.place? = none ↔ a.IsNaN := by
  cases a with
  | float x =>
    have hnan : (float x).IsNaN ↔ Double.infiniteMagnitude < x.magnitude := by
      simp [IsNaN, Double.isNaN]
    rw [hnan]
    obtain ⟨hx, hplace⟩ | ⟨hx, hplace⟩ | ⟨hx, hplace⟩ := place?_float x
    · exact iff_of_false (by simp [hplace]) (by omega)
    · exact iff_of_false (by simp [hplace]) (by omega)
    · exact iff_of_true hplace hx
  | _ => simp [place?, IsNaN]

theorem equals_float_iff_place :
    x.equals y = true ↔ ∃ p, (float x).place? = some p ∧ (float y).place? = some p := by
  have hequals : x.equals y = true ↔ x.magnitude ≤ Double.infiniteMagnitude ∧
      y.magnitude ≤ Double.infiniteMagnitude ∧ x.rank = y.rank := by
    simp [Double.equals, Double.isNaN, and_assoc]
  have hxrank := x.rank_cases
  have hyrank := y.rank_cases
  rw [hequals]
  obtain ⟨hx, hxplace⟩ | ⟨hx, hxplace⟩ | ⟨hx, hxplace⟩ := place?_float x <;>
    obtain ⟨hy, hyplace⟩ | ⟨hy, hyplace⟩ | ⟨hy, hyplace⟩ := place?_float y <;>
    simp only [hxplace, hyplace, Option.some.injEq, reduceCtorEq, and_false, false_and,
      exists_false, exists_eq_left', Place.number.injEq, Place.infinity.injEq, iff_false]
  · rw [eq_comm (a := y.value), Double.value_eq_iff_rank]
    omega
  · omega
  · omega
  · omega
  · have hpos : 0 < Double.infiniteMagnitude := by decide
    obtain ⟨hxsign, _⟩ | ⟨hxsign, _⟩ := hxrank <;> obtain ⟨hysign, _⟩ | ⟨hysign, _⟩ := hyrank <;>
      rw [hxsign, hysign] <;> simp <;> omega
  all_goals omega

theorem equals_int_float_iff_place {n : Int64} :
    (x.toInt64? == some n) = true ↔ ∃ p, (int n).place? = some p ∧ (float x).place? = some p := by
  have hplace : (int n).place? = some (.number n.toInt) := rfl
  rw [beq_iff_eq, toInt64?_eq_some_iff, hplace]
  by_cases hx : x.isFinite = true
  · rw [Double.toInt?_eq_some_iff hx]
    simp [place?, hx]
  · have hnone : x.toInt? = none := by simp [Double.toInt?, hx]
    rw [hnone]
    refine iff_of_false (fun h => by cases h) ?_
    rintro ⟨p, hp, hxp⟩
    cases hp
    obtain ⟨hfinite, _⟩ | ⟨_, hplace⟩ | ⟨_, hplace⟩ := place?_float x
    · exact hx (decide_eq_true hfinite)
    · rw [hplace] at hxp
      cases hxp
    · rw [hplace] at hxp
      cases hxp

theorem place?_float_ne_other {v : Value} : (float x).place? ≠ some (.other v) := by
  obtain ⟨_, h⟩ | ⟨_, h⟩ | ⟨_, h⟩ := place?_float x <;> rw [h] <;> nofun

-- Equal doubles are one double, or they are zeros and equal one integer.
theorem eq_or_toInt64?_of_equals (h : x.equals y = true) :
    x = y ∨ x.toInt64? = some 0 ∧ y.toInt64? = some 0 := by
  have hrank : x.rank = y.rank := by
    simp only [Double.equals, Bool.and_eq_true, beq_iff_eq] at h
    exact h.2
  have hzero {z : Double} (hz : z.magnitude = 0) : z.toInt64? = some 0 :=
    toInt64?_eq_some_iff.mpr (Double.toInt?_of_magnitude_eq_zero hz)
  exact (Double.eq_or_zeros_of_rank hrank).imp_right (And.imp hzero hzero)

-- Values are equal when they share a place.
theorem equals_iff_place : a.equals b = true ↔ ∃ p, a.place? = some p ∧ b.place? = some p := by
  cases a with
  | int m =>
    cases b with
    | int n =>
      have hcast : (n.toInt : ℚ) = m.toInt ↔ m = n := by rw [Int.cast_inj, Int64.toInt_inj, eq_comm]
      simp [equals, place?, hcast]
    | float y => exact equals_int_float_iff_place
    | _ => simp [equals, place?]
  | float x =>
    cases b with
    | int n =>
      rw [equals, equals_int_float_iff_place]
      exact exists_congr fun p => and_comm
    | float y => exact equals_float_iff_place
    | _ =>
      refine iff_of_false (fun h => by cases h) ?_
      rintro ⟨p, hx, hp⟩
      cases hp
      exact place?_float_ne_other hx
  | _ =>
    cases b with
    | float y =>
      refine iff_of_false (fun h => by cases h) ?_
      rintro ⟨p, hp, hy⟩
      cases hp
      exact place?_float_ne_other hy
    | _ => simp [equals, place?] <;> exact eq_comm

-- Equal values have one form in common.
theorem canonical_of_equals (h : a.equals b = true) : a.canonical = b.canonical := by
  cases a with
  | int m =>
    cases b with
    | int n => rw [beq_iff_eq.mp h]
    | float y =>
      have hexact : y.toInt64? = some m := beq_iff_eq.mp h
      simp [canonical, hexact]
    | _ => cases h
  | float x =>
    cases b with
    | int n =>
      have hexact : x.toInt64? = some n := beq_iff_eq.mp h
      simp [canonical, hexact]
    | float y =>
      obtain rfl | ⟨hx, hy⟩ := eq_or_toInt64?_of_equals h
      · rfl
      · simp [canonical, hx, hy]
    | _ => cases h
  | void => cases b <;> first | rfl | cases h
  | _ =>
    cases b with
    | int | float | void => cases h
    | _ => first | rw [beq_iff_eq.mp h] | cases h

end Place

end Value

namespace Store

open Value

variable {x y : Double}

theorem floatPreimage_of_equals_int {n : Int64} (h : (int n).equals (float x) = true) :
    floatPreimage x = intPreimage n := by
  have hexact : x.toInt64? = some n := beq_iff_eq.mp h
  rw [floatPreimage, hexact]

theorem floatPreimage_of_equals (h : (float x).equals (float y) = true) :
    floatPreimage x = floatPreimage y := by
  obtain rfl | ⟨hx, hy⟩ := eq_or_toInt64?_of_equals h
  · rfl
  · rw [floatPreimage, floatPreimage, hx, hy]

-- Equal values hash alike inside any containers.
theorem hashWithin_of_equals (digest : Bytes → UInt64) (s : Store) (path : List Address)
    {a b : Value} (h : a.equals b = true) :
    s.hashWithin digest path a = s.hashWithin digest path b := by
  cases a with
  | int m =>
    cases b with
    | int n => rw [beq_iff_eq.mp h]
    | float y => rw [hashWithin, hashWithin, floatPreimage_of_equals_int h]
    | _ => cases h
  | float x =>
    cases b with
    | int n => rw [hashWithin, hashWithin, floatPreimage_of_equals_int h]
    | float y => rw [hashWithin, hashWithin, floatPreimage_of_equals h]
    | _ => cases h
  | void => cases b <;> first | rfl | cases h
  | _ =>
    cases b with
    | int | float | void => cases h
    | _ => first | rw [beq_iff_eq.mp h] | cases h

-- Equality is an equivalence but for the NaNs, it is exact, and hashing respects it.
theorem equals_equivalence (digest : Bytes → UInt64) (s : Store) (a b c : Value) :
    (a.equals a = true ↔ ¬a.IsNaN) ∧
      (a.equals b = true → b.equals a = true) ∧
      (a.equals b = true → b.equals c = true → a.equals c = true) ∧
      (a.equals b = true ↔ ∃ p, a.place? = some p ∧ b.place? = some p) ∧
      (a.equals b = true → ∀ path, s.hashWithin digest path a = s.hashWithin digest path b) := by
  refine ⟨?_, fun h => ?_, fun hab hbc => ?_, equals_iff_place, fun h path => ?_⟩
  · rw [equals_iff_place, ← place?_eq_none_iff, ← Ne, Option.ne_none_iff_exists']
    simp
  · obtain ⟨p, ha, hb⟩ := equals_iff_place.mp h
    exact equals_iff_place.mpr ⟨p, hb, ha⟩
  · obtain ⟨p, ha, hb⟩ := equals_iff_place.mp hab
    obtain ⟨q, hb', hc⟩ := equals_iff_place.mp hbc
    rw [hb] at hb'
    cases hb'
    exact equals_iff_place.mpr ⟨p, ha, hc⟩
  · exact hashWithin_of_equals digest s path h

-- The zeros are equal by way of the integer, and then they hash alike.
theorem equals_equivalence_zeros :
    (Value.float (.zero true)).equals (.int 0) = true ∧
      (Value.int 0).equals (.float (.zero false)) = true ∧
      (Value.float (.zero true)).equals (.float (.zero false)) = true ∧
      empty.hash (.float (.zero true)) = empty.hash (.float (.zero false)) := by
  have hleft : (Value.float (.zero true)).equals (.int 0) = true := by decide +kernel
  have hright : (Value.int 0).equals (.float (.zero false)) = true := by decide +kernel
  have heq := (equals_equivalence SipHash.digest empty _ _ _).2.2.1 hleft hright
  refine ⟨hleft, hright, heq, ?_⟩
  exact (equals_equivalence SipHash.digest empty _ _ (.int 0)).2.2.2.2 heq []

end Store

end Conductor
