import Conductor.Numeric.Double
import Mathlib.Algebra.Order.Field.Power
import Mathlib.Data.Nat.Cast.Field
import Mathlib.Tactic.Linarith
import Mathlib.Tactic.LinearCombination
import Mathlib.Tactic.Positivity
import Mathlib.Tactic.Ring
import Mathlib.Tactic.NormNum

namespace Conductor.Double

-- A magnitude as a significand and an exponent.
def significandAt (k : Nat) : Nat := if k < hiddenBit then k else k % hiddenBit + hiddenBit

def exponentAt (k : Nat) : Int := (max 1 (k / hiddenBit) : Nat) - 1075

-- The number that a magnitude stands for.
def sizeAt (k : Nat) : ℚ := significandAt k * 2 ^ exponentAt k

-- The number that a finite double stands for.
def value (x : Double) : ℚ := if x.negative then -sizeAt x.magnitude else sizeAt x.magnitude

-- A magnitude whose significand has the hidden bit, by its exponent field.
theorem fields_of_le (field : Nat) {s : Nat} (hlow : hiddenBit ≤ s) (hhigh : s < 2 * hiddenBit) :
    significandAt (field * hiddenBit + s) = s ∧
      exponentAt (field * hiddenBit + s) = field - 1074 := by
  have hpos : 0 < hiddenBit := by decide
  have hquotient : (field * hiddenBit + s) / hiddenBit = field + 1 := by
    rw [Nat.mul_comm, Nat.mul_add_div hpos, Nat.div_eq_of_lt_le (k := 1) (by omega) (by omega)]
  have hrest : (field * hiddenBit + s) % hiddenBit = s - hiddenBit := by
    have hsum := Nat.div_add_mod (field * hiddenBit + s) hiddenBit
    rw [hquotient, Nat.mul_add, Nat.mul_comm] at hsum
    omega
  constructor
  · rw [significandAt, if_neg (by omega), hrest]
    omega
  · rw [exponentAt, hquotient]
    omega

-- A magnitude below two hidden bits is its own significand.
theorem fields_of_lt {k : Nat} (h : k < 2 * hiddenBit) :
    significandAt k = k ∧ exponentAt k = -1074 := by
  by_cases hsmall : k < hiddenBit
  · refine ⟨if_pos hsmall, ?_⟩
    rw [exponentAt, Nat.div_eq_of_lt hsmall]
    rfl
  · simpa using fields_of_le 0 (Nat.le_of_not_lt hsmall) h

-- Every larger magnitude has a significand with the hidden bit.
theorem exists_fields {k : Nat} (h : hiddenBit ≤ k) :
    ∃ field s, k = field * hiddenBit + s ∧ hiddenBit ≤ s ∧ s < 2 * hiddenBit := by
  have hpos : 0 < hiddenBit := by decide
  have hsum := Nat.div_add_mod k hiddenBit
  have hrest := Nat.mod_lt k hpos
  have hquotient : 1 ≤ k / hiddenBit := (Nat.le_div_iff_mul_le hpos).mpr (by omega)
  obtain ⟨field, hfield⟩ := Nat.exists_eq_add_of_le hquotient
  refine ⟨field, k % hiddenBit + hiddenBit, ?_, by omega, by omega⟩
  rw [hfield, Nat.mul_add, Nat.mul_comm hiddenBit field] at hsum
  omega

-- What the next magnitude is: one unit more, or the hidden bit at twice the unit.
inductive Successor (k : Nat) : Prop
  | step (hs : significandAt (k + 1) = significandAt k + 1) (he : exponentAt (k + 1) = exponentAt k)
      (hdense : ¬(significandAt (k + 1) = hiddenBit ∧ -1074 < exponentAt (k + 1)))
  | carry (hs : significandAt k + 1 = 2 * hiddenBit) (hs' : significandAt (k + 1) = hiddenBit)
      (he : exponentAt (k + 1) = exponentAt k + 1) (hdense : -1074 < exponentAt (k + 1))

theorem successor (k : Nat) : Successor k := by
  by_cases hsmall : k + 1 < 2 * hiddenBit
  · obtain ⟨hs, he⟩ := fields_of_lt hsmall
    obtain ⟨hs', he'⟩ := fields_of_lt (k := k) (by omega)
    exact .step (by omega) (by omega) (by omega)
  obtain ⟨field, s, rfl, hlow, hhigh⟩ := exists_fields (k := k) (by omega)
  obtain ⟨hs, he⟩ := fields_of_le field hlow hhigh
  by_cases hcarry : s + 1 < 2 * hiddenBit
  · obtain ⟨hs', he'⟩ := fields_of_le field (s := s + 1) (by omega) hcarry
    rw [← Nat.add_assoc] at hs' he'
    exact .step (by omega) (by omega) (by omega)
  · have hnext : field * hiddenBit + s + 1 = (field + 1) * hiddenBit + hiddenBit := by
      rw [Nat.add_mul]
      omega
    obtain ⟨hs', he'⟩ := fields_of_le (field + 1) (Nat.le_refl hiddenBit) (by decide)
    rw [← hnext] at hs' he'
    exact .carry (by omega) hs' (by omega) (by omega)

theorem significandAt_mod_two (k : Nat) : significandAt k % 2 = k % 2 := by
  induction k with
  | zero => decide
  | succ k ih =>
    have hhidden : hiddenBit % 2 = 0 := by decide
    obtain ⟨hs⟩ | ⟨hs, hs'⟩ := successor k <;> omega

theorem significandAt_pos {k : Nat} (h : 0 < k) : 0 < significandAt k := by
  obtain ⟨k, rfl⟩ := Nat.exists_eq_add_one_of_ne_zero (Nat.ne_of_gt h)
  have hhidden : 0 < hiddenBit := by decide
  obtain ⟨hs⟩ | ⟨hs, hs'⟩ := successor k <;> omega

theorem sizeAt_zero : sizeAt 0 = 0 := by simp [sizeAt, significandAt, hiddenBit]

-- From a magnitude to the next the number grows by the unit of the smaller one.
theorem sizeAt_succ (k : Nat) : sizeAt (k + 1) = sizeAt k + 2 ^ exponentAt k := by
  obtain ⟨hs, he⟩ | ⟨hs, hs', he⟩ := successor k
  · rw [sizeAt, sizeAt, hs, he]
    push_cast
    ring
  · have hcast : (significandAt k : ℚ) + 1 = 2 * hiddenBit := by exact_mod_cast hs
    rw [sizeAt, sizeAt, hs', he, zpow_add_one₀ (by norm_num)]
    linear_combination -(2 : ℚ) ^ exponentAt k * hcast

theorem sizeAt_strictMono : StrictMono sizeAt := by
  refine strictMono_nat_of_lt_succ fun k => ?_
  have hpos : (0 : ℚ) < 2 ^ exponentAt k := by positivity
  rw [sizeAt_succ]
  linarith

theorem sizeAt_nonneg (k : Nat) : 0 ≤ sizeAt k := by
  unfold sizeAt
  positivity

theorem sizeAt_eq_zero {k : Nat} : sizeAt k = 0 ↔ k = 0 := by
  rw [← sizeAt_zero]
  exact sizeAt_strictMono.injective.eq_iff

variable {x y : Double}

theorem ext_sign_magnitude (hsign : x.negative = y.negative)
    (hmagnitude : x.magnitude = y.magnitude) : x = y := by
  have hparts (z : Double) : z.bits.toNat = (if z.negative then signBit else 0) + z.magnitude := by
    have hbound := z.bits.toNat_lt
    by_cases h : signBit ≤ z.bits.toNat
    · simp only [negative, magnitude, h, decide_true, ite_true]
      simp only [signBit] at h hbound ⊢
      omega
    · simp only [negative, magnitude, h, decide_false, Bool.false_eq_true, ite_false]
      rw [Nat.mod_eq_of_lt (Nat.lt_of_not_le h), Nat.zero_add]
  have hbits : x.bits = y.bits :=
    UInt64.toNat_inj.mp (by rw [hparts x, hparts y, hsign, hmagnitude])
  cases x
  cases y
  cases hbits
  rfl

theorem rank_cases (x : Double) :
    x.negative = false ∧ x.rank = x.magnitude ∨
      x.negative = true ∧ x.rank = -(x.magnitude : Int) := by
  rw [rank]
  cases x.negative <;> simp

-- Doubles of one rank are one double or the zeros.
theorem eq_or_zeros_of_rank (h : x.rank = y.rank) : x = y ∨ x.magnitude = 0 ∧ y.magnitude = 0 := by
  obtain ⟨hx, hxrank⟩ | ⟨hx, hxrank⟩ := rank_cases x <;>
    obtain ⟨hy, hyrank⟩ | ⟨hy, hyrank⟩ := rank_cases y
  · exact .inl (ext_sign_magnitude (hx.trans hy.symm) (by omega))
  · exact .inr (by omega)
  · exact .inr (by omega)
  · exact .inl (ext_sign_magnitude (hx.trans hy.symm) (by omega))

theorem value_eq_iff_rank : x.value = y.value ↔ x.rank = y.rank := by
  have hzero (j k : Nat) : sizeAt j = -sizeAt k ↔ (j : Int) = -(k : Int) := by
    have hj := sizeAt_nonneg j
    have hk := sizeAt_nonneg k
    constructor
    · intro h
      have hj' : j = 0 := sizeAt_eq_zero.mp (by linarith)
      have hk' : k = 0 := sizeAt_eq_zero.mp (by linarith)
      omega
    · intro h
      obtain ⟨rfl, rfl⟩ : j = 0 ∧ k = 0 := by omega
      rw [sizeAt_zero, neg_zero]
  rw [value, value, rank, rank]
  cases x.negative <;> cases y.negative <;>
    simp [sizeAt_strictMono.injective.eq_iff, hzero, eq_comm, neg_eq_iff_eq_neg]

-- Doubles that are numbers are equal when they stand for one number.
theorem equals_iff_value (hx : x.isFinite = true) (hy : y.isFinite = true) :
    x.equals y = true ↔ x.value = y.value := by
  have hnan {z : Double} (hz : z.isFinite = true) : z.isNaN = false := by
    simp only [isFinite, isNaN, decide_eq_true_eq, decide_eq_false_iff_not] at hz ⊢
    omega
  rw [value_eq_iff_rank]
  simp [equals, hnan hx, hnan hy]

-- A double has the whole value that its number is.
theorem toInt?_eq_some_iff {n : Int} (hx : x.isFinite = true) :
    x.toInt? = some n ↔ x.value = n := by
  have hsigned (v : Nat) (q : ℚ) (hq : q = v) :
      (if x.negative then -(v : Int) else v) = n ↔ (if x.negative then -q else q) = n := by
    subst hq
    cases x.negative <;> simp only [Bool.false_eq_true, ite_false, ite_true] <;> norm_cast
  have hunfold : x.value = if x.negative then -((x.significand : ℚ) * 2 ^ x.exponent)
      else (x.significand : ℚ) * 2 ^ x.exponent := rfl
  rw [hunfold]
  simp only [toInt?, hx, Bool.not_true, Bool.false_eq_true, ite_false]
  by_cases hexponent : 0 ≤ x.exponent
  · obtain ⟨e, he⟩ := Int.eq_ofNat_of_zero_le hexponent
    rw [if_pos hexponent, Option.some.injEq]
    refine hsigned _ _ ?_
    rw [he]
    simp
  · obtain ⟨e, he⟩ := Int.eq_ofNat_of_zero_le (show 0 ≤ -x.exponent by omega)
    have hvalue : (x.significand : ℚ) * 2 ^ x.exponent = x.significand / 2 ^ e := by
      rw [show x.exponent = -(e : Int) by omega, zpow_neg, zpow_natCast, div_eq_mul_inv]
    have hunit : (2 : ℚ) ^ e ≠ 0 := by positivity
    rw [if_neg hexponent, he, hvalue, Int.toNat_natCast]
    change (if x.significand % 2 ^ e = 0 then _ else _) = _ ↔ _
    split
    · rename_i hwhole
      rw [Option.some.injEq]
      refine hsigned _ _ ?_
      change _ = ((x.significand / 2 ^ e : Nat) : ℚ)
      rw [Nat.cast_div (Nat.dvd_of_mod_eq_zero hwhole) (by exact_mod_cast hunit)]
      push_cast
      rfl
    · rename_i hwhole
      refine iff_of_false nofun fun h => hwhole (Nat.mod_eq_zero_of_dvd ⟨n.natAbs, ?_⟩)
      have habs : (x.significand : ℚ) / 2 ^ e = |(n : ℚ)| := by
        have hnonneg : 0 ≤ (x.significand : ℚ) / 2 ^ e := by positivity
        rw [← h]
        cases x.negative <;> simp [abs_of_nonneg hnonneg]
      rw [div_eq_iff hunit, ← Int.cast_abs, ← Nat.cast_natAbs] at habs
      rw [mul_comm]
      exact_mod_cast habs

theorem toInt?_of_magnitude_eq_zero (h : x.magnitude = 0) : x.toInt? = some 0 := by
  have hfinite : x.isFinite = true := by
    rw [isFinite, h]
    decide
  refine (toInt?_eq_some_iff hfinite).mpr ?_
  simp [value, h, sizeAt_zero]

end Conductor.Double
