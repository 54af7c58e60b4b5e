import Conductor.Proofs.Numeric.Exact
import Conductor.Proofs.Numeric.Rounding
import Mathlib.Tactic.FieldSimp

namespace Conductor.Double

-- Half way from a magnitude to the next.
def above (k : Nat) : ℚ := (sizeAt k + sizeAt (k + 1)) / 2

-- Half way from the magnitude before. Below zero lie the numbers of the other sign.
def below : Nat → ℚ
  | 0 => -above 0
  | k + 1 => above k

-- A number is nearest to this magnitude. Half way the even magnitude counts.
structure Rounds (k : Nat) (q : ℚ) : Prop where
  low : below k ≤ q
  high : q ≤ above k
  strict : k % 2 = 1 → below k < q ∧ q < above k

variable {j k : Nat} {q r t : ℚ}

theorem sizeAt_lt_above (k : Nat) : sizeAt k < above k := by
  have hlt := sizeAt_strictMono (Nat.lt_succ_self k)
  rw [above]
  linarith

theorem above_lt_sizeAt (k : Nat) : above k < sizeAt (k + 1) := by
  have hlt := sizeAt_strictMono (Nat.lt_succ_self k)
  rw [above]
  linarith

theorem above_strictMono : StrictMono above :=
  strictMono_nat_of_lt_succ fun k => (above_lt_sizeAt k).trans (sizeAt_lt_above (k + 1))

theorem below_lt_sizeAt (k : Nat) : below k < sizeAt k := by
  cases k with
  | zero =>
    have hpos := sizeAt_lt_above 0
    rw [sizeAt_zero] at hpos ⊢
    rw [below]
    linarith
  | succ k => exact above_lt_sizeAt k

theorem rounds_sizeAt (k : Nat) : Rounds k (sizeAt k) :=
  have hbelow := below_lt_sizeAt k
  have habove := sizeAt_lt_above k
  ⟨hbelow.le, habove.le, fun _ => ⟨hbelow, habove⟩⟩

-- What lies between two numbers that round to a magnitude rounds to it.
theorem Rounds.between (hq : Rounds k q) (hr : Rounds k r) (hqt : q ≤ t) (htr : t ≤ r) :
    Rounds k t :=
  ⟨hq.low.trans hqt, htr.trans hr.high,
    fun hodd => ⟨(hq.strict hodd).1.trans_le hqt, htr.trans_lt (hr.strict hodd).2⟩⟩

theorem Rounds.not_lt (hj : Rounds j q) (hk : Rounds k q) : ¬j < k := by
  intro hlt
  obtain ⟨k, rfl⟩ := Nat.exists_eq_add_one_of_ne_zero (Nat.ne_of_gt (Nat.zero_lt_of_lt hlt))
  have hmeet : above k ≤ above j := hk.low.trans hj.high
  have hle : k ≤ j := above_strictMono.le_iff_le.mp hmeet
  obtain rfl : k = j := by omega
  -- Of two neighbours one is odd, and it leaves out the midpoint between them.
  obtain hodd | hodd := Nat.mod_two_eq_zero_or_one k
  · exact absurd hj.high (not_le.mpr (hk.strict (by omega)).1)
  · exact absurd hk.low (not_le.mpr (hj.strict hodd).2)

theorem Rounds.unique (hj : Rounds j q) (hk : Rounds k q) : j = k :=
  Nat.le_antisymm (Nat.not_lt.mp (hk.not_lt hj)) (Nat.not_lt.mp (hj.not_lt hk))

theorem Rounds.pos (h : Rounds k q) (hk : 0 < k) : 0 < q := by
  obtain ⟨k, rfl⟩ := Nat.exists_eq_add_one_of_ne_zero (Nat.ne_of_gt hk)
  exact (sizeAt_nonneg k).trans_lt ((sizeAt_lt_above k).trans_le h.low)

section Integers

-- The exponent field over a significand, which may carry.
theorem sizeAt_fields (field : Nat) {s : Nat} (hlow : hiddenBit ≤ s) (hhigh : s ≤ 2 * hiddenBit) :
    sizeAt (field * hiddenBit + s) = s * 2 ^ ((field : Int) - 1074) := by
  obtain hlt | rfl := Nat.lt_or_eq_of_le hhigh
  · obtain ⟨hs, he⟩ := fields_of_le field hlow hlt
    rw [sizeAt, hs, he]
  · have hcarry : field * hiddenBit + 2 * hiddenBit = (field + 1) * hiddenBit + hiddenBit := by ring
    obtain ⟨hs, he⟩ := fields_of_le (field + 1) (Nat.le_refl hiddenBit) (by decide)
    have hexponent : ((field + 1 : Nat) : Int) - 1074 = (field : Int) - 1074 + 1 := by omega
    rw [hcarry, sizeAt, hs, he, hexponent, zpow_add_one₀ (by norm_num)]
    push_cast
    ring

theorem sizeAt_fields_succ (field : Nat) {s : Nat} (hlow : hiddenBit ≤ s)
    (hhigh : s ≤ 2 * hiddenBit) :
    (s + 1) * 2 ^ ((field : Int) - 1074) ≤ sizeAt (field * hiddenBit + s + 1) := by
  obtain hlt | rfl := Nat.lt_or_eq_of_le hhigh
  · rw [Nat.add_assoc, sizeAt_fields _ (by omega) hlt]
    push_cast
    exact le_refl _
  · have hcarry : field * hiddenBit + 2 * hiddenBit + 1 =
        (field + 1) * hiddenBit + (hiddenBit + 1) := by ring
    have hexponent : ((field + 1 : Nat) : Int) - 1074 = (field : Int) - 1074 + 1 := by omega
    have hpos : (0 : ℚ) < 2 ^ ((field : Int) - 1074) := by positivity
    rw [hcarry, sizeAt_fields _ (by omega) (by decide), hexponent, zpow_add_one₀ (by norm_num)]
    push_cast
    linarith

-- What is at most half a unit away rounds to the significand, and what is half a unit away does if
-- the significand is even. Below the hidden bit the units are smaller.
theorem rounds_of_near {field s : Nat} (hlow : hiddenBit ≤ s) (hhigh : s ≤ 2 * hiddenBit)
    (hle : 2 * q ≤ (2 * s + 1) * 2 ^ ((field : Int) - 1074))
    (hge : (2 * s - 1) * 2 ^ ((field : Int) - 1074) ≤ 2 * q)
    (hleast : s = hiddenBit → s * 2 ^ ((field : Int) - 1074) ≤ q)
    (hodd : s % 2 = 1 → 2 * q < (2 * s + 1) * 2 ^ ((field : Int) - 1074) ∧
      (2 * s - 1) * 2 ^ ((field : Int) - 1074) < 2 * q) :
    Rounds (field * hiddenBit + s) q := by
  have hsize := sizeAt_fields field hlow hhigh
  have hnext := sizeAt_fields_succ field hlow hhigh
  have hpos : 0 < hiddenBit := by decide
  have hupper : (2 * s + 1) * 2 ^ ((field : Int) - 1074) ≤ 2 * above (field * hiddenBit + s) := by
    rw [above]
    linarith
  have hlower : below (field * hiddenBit + s) < q ∨
      2 * below (field * hiddenBit + s) = (2 * s - 1) * 2 ^ ((field : Int) - 1074) := by
    obtain heq | hlt := Nat.eq_or_lt_of_le hlow
    · refine .inl ((below_lt_sizeAt _).trans_le ?_)
      rw [hsize]
      exact hleast heq.symm
    · obtain ⟨t, rfl⟩ := Nat.exists_eq_add_one_of_ne_zero (show s ≠ 0 by omega)
      rw [← Nat.add_assoc] at hsize ⊢
      rw [below, above, hsize, sizeAt_fields _ (by omega) (by omega)]
      right
      push_cast
      ring
  have hparity : (field * hiddenBit + s) % 2 = s % 2 := by
    rw [hiddenBit]
    omega
  refine ⟨?_, by linarith, fun h => ?_⟩
  · obtain h | h := hlower <;> linarith
  · obtain ⟨hlt, hgt⟩ := hodd (hparity ▸ h)
    exact ⟨by obtain h | h := hlower <;> linarith, by linarith⟩

theorem nearestQuotient_near (m : Nat) {unit : Nat} (hunit : 0 < unit) :
    2 * m ≤ (2 * nearestQuotient m unit + 1) * unit ∧
      2 * nearestQuotient m unit * unit ≤ 2 * m + unit ∧
      (nearestQuotient m unit % 2 = 1 → 2 * m < (2 * nearestQuotient m unit + 1) * unit ∧
        2 * nearestQuotient m unit * unit < 2 * m + unit) := by
  have hsum := Nat.div_add_mod m unit
  have hrest := Nat.mod_lt m hunit
  have hle (a : Nat) : (2 * a + 1) * unit = 2 * (unit * a) + unit := by ring
  have hge (a : Nat) : 2 * a * unit = 2 * (unit * a) := by ring
  have hsucc (a : Nat) : unit * (a + 1) = unit * a + unit := by ring
  rw [hle, hge, nearestQuotient]
  simp only [Bool.or_eq_true, Bool.and_eq_true, decide_eq_true_eq]
  generalize m % unit = rest at hsum hrest ⊢
  split
  · rw [hsucc]
    omega
  · omega

-- The double that an integer is converted to is the one that it rounds to.
theorem rounds_nearestMagnitude (n : Nat) : Rounds (nearestMagnitude n) n := by
  by_cases hn : n = 0
  · subst hn
    have hzero := rounds_sizeAt 0
    rw [sizeAt_zero] at hzero
    exact_mod_cast hzero
  obtain ⟨hlow, hhigh⟩ := nearestSignificand_bounds hn
  have hlog := Nat.log2_self_le hn
  have hexponent : ((n.log2 + 1022 : Nat) : Int) - 1074 = (n.log2 : Int) - 52 := by omega
  rw [nearestMagnitude, if_neg hn]
  by_cases hsmall : n.log2 ≤ 52
  · -- Every bit of a small integer has its place.
    have hexact : sizeAt ((n.log2 + 1022) * hiddenBit + nearestSignificand n) = n := by
      have hshift : (n.log2 : Int) - 52 = -((52 - n.log2 : Nat) : Int) := by omega
      rw [sizeAt_fields _ hlow hhigh, hexponent, nearestSignificand, if_pos hsmall, hshift,
        zpow_neg, zpow_natCast]
      change ((n * 2 ^ (52 - n.log2) : Nat) : ℚ) * _ = n
      push_cast
      field_simp
    rw [← hexact]
    exact rounds_sizeAt _
  have hunit : 0 < 2 ^ (n.log2 - 52) := Nat.two_pow_pos _
  have hcast : (2 : ℚ) ^ ((n.log2 : Int) - 52) = ((2 ^ (n.log2 - 52) : Nat) : ℚ) := by
    rw [show (n.log2 : Int) - 52 = ((n.log2 - 52 : Nat) : Int) by omega, zpow_natCast]
    push_cast
    rfl
  have hquotient : nearestSignificand n = nearestQuotient n (2 ^ (n.log2 - 52)) := if_neg hsmall
  obtain ⟨hle, hge, hodd⟩ := nearestQuotient_near n hunit
  rw [← hquotient] at hle hge hodd
  have hleast : hiddenBit * 2 ^ (n.log2 - 52) ≤ n := by
    rw [hiddenBit_eq, ← pow_add, Nat.add_sub_of_le (by omega)]
    exact hlog
  refine rounds_of_near hlow hhigh ?_ ?_ ?_ ?_ <;> rw [hexponent, hcast]
  · exact_mod_cast hle
  · have hge' : ((2 * nearestSignificand n * 2 ^ (n.log2 - 52) : Nat) : ℚ) ≤
        ((2 * n + 2 ^ (n.log2 - 52) : Nat) : ℚ) := by exact_mod_cast hge
    push_cast at hge' ⊢
    linarith
  · rintro heq
    rw [heq]
    exact_mod_cast hleast
  · intro h
    obtain ⟨hlt, hgt⟩ := hodd h
    have hgt' : ((2 * nearestSignificand n * 2 ^ (n.log2 - 52) : Nat) : ℚ) <
        ((2 * n + 2 ^ (n.log2 - 52) : Nat) : ℚ) := by exact_mod_cast hgt
    refine ⟨by exact_mod_cast hlt, ?_⟩
    push_cast at hgt' ⊢
    linarith

theorem nearestMagnitude_eq_iff {n : Nat} : nearestMagnitude n = k ↔ Rounds k n := by
  constructor
  · rintro rfl
    exact rounds_nearestMagnitude n
  · exact (rounds_nearestMagnitude n).unique

-- No integer but zero rounds to a zero.
theorem rounds_zero_iff {n : Nat} : Rounds 0 n ↔ n = 0 := by
  rw [← nearestMagnitude_eq_iff, nearestMagnitude]
  split
  · rename_i hn
    exact iff_of_true rfl hn
  · rename_i hn
    refine iff_of_false ?_ hn
    have hlow := (nearestSignificand_bounds hn).1
    have hpos : 0 < hiddenBit := by decide
    omega

-- The integers that round to a double are those of its sign in its interval.
theorem ofInt_eq_iff {x : Double} (hx : x.isFinite = true) {n : Int} :
    ofInt n = x ↔ x.negative = decide (n < 0) ∧ Rounds x.magnitude n.natAbs := by
  have hfinite : x.magnitude < infiniteMagnitude := of_decide_eq_true hx
  have hbound : min infiniteMagnitude (nearestMagnitude n.natAbs) < signBit :=
    Nat.lt_of_le_of_lt (Nat.min_le_left _ _) infiniteMagnitude_lt
  have hsign : (ofParts (decide (n < 0)) _).negative = decide (n < 0) := negative_ofParts hbound
  have hmagnitude : (ofParts (decide (n < 0)) _).magnitude = _ := magnitude_ofParts hbound
  rw [ofInt, round_integer, ← nearestMagnitude_eq_iff]
  constructor
  · rintro rfl
    rw [hmagnitude] at hfinite ⊢
    exact ⟨hsign, by omega⟩
  · rintro ⟨hnegative, hnearest⟩
    refine ext_sign_magnitude (hsign.trans hnegative.symm) (hmagnitude.trans ?_)
    omega

end Integers

section Small

theorem exponentAt_le_one (h : sizeAt k < 2 ^ 54) : exponentAt k ≤ 1 := by
  by_cases hsmall : k < 2 * hiddenBit
  · rw [(fields_of_lt hsmall).2]
    decide
  obtain ⟨field, s, rfl, hlow, hhigh⟩ := exists_fields (k := k) (by omega)
  obtain ⟨hs, he⟩ := fields_of_le field hlow hhigh
  by_contra hlarge
  have hunit : (2 : ℚ) ^ (2 : Int) ≤ 2 ^ exponentAt (field * hiddenBit + s) :=
    zpow_le_zpow_right₀ (by norm_num) (by omega)
  have hsize : ((2 ^ 52 : Nat) : ℚ) ≤ s := Nat.cast_le.mpr (hiddenBit_eq ▸ hlow)
  rw [sizeAt, hs] at h
  have hproduct := mul_le_mul hsize hunit (by norm_num) (by positivity)
  norm_num at hproduct h
  linarith

-- What rounds to a double is at most half a unit away.
theorem Rounds.abs_sub_le (h : Rounds k q) : |q - sizeAt k| ≤ 2 ^ exponentAt k / 2 := by
  have hhigh := h.high
  have hlow := h.low
  rw [above, sizeAt_succ] at hhigh
  have hbelow : sizeAt k - below k ≤ 2 ^ exponentAt k / 2 := by
    cases k with
    | zero =>
      rw [below, above, sizeAt_succ, sizeAt_zero]
      linarith
    | succ k =>
      have hunit : (2 : ℚ) ^ exponentAt k ≤ 2 ^ exponentAt (k + 1) := by
        refine zpow_le_zpow_right₀ (by norm_num) ?_
        obtain ⟨_, he⟩ | ⟨_, _, he⟩ := successor k <;> omega
      rw [below, above, sizeAt_succ]
      linarith
  rw [abs_le]
  constructor <;> linarith

-- An integer that rounds to a small double is its number, or it is odd and the number even.
theorem rounds_small (h : sizeAt k < 2 ^ 54) {j : Nat} (hj : Rounds k j) :
    (j : ℚ) = sizeAt k ∨ j % 2 = 1 ∧ sizeAt k = (2 * significandAt k : Nat) := by
  have hexponent := exponentAt_le_one h
  have hnear := hj.abs_sub_le
  obtain heq | hle := hexponent.eq_or_lt
  · have hsize : sizeAt k = (2 * significandAt k : Nat) := by
      rw [sizeAt, heq]
      push_cast
      ring
    rw [hsize, heq] at hnear
    have hint : |(j : Int) - (2 * significandAt k : Nat)| ≤ 1 := by
      have hcast : ((|(j : Int) - (2 * significandAt k : Nat)| : Int) : ℚ) ≤ (1 : Int) := by
        push_cast at hnear ⊢
        norm_num at hnear
        exact hnear
      exact_mod_cast hcast
    rw [abs_le] at hint
    by_cases hodd : j % 2 = 1
    · exact .inr ⟨hodd, hsize⟩
    · refine .inl ?_
      rw [hsize, Nat.cast_inj]
      omega
  · obtain ⟨n, hn⟩ := Int.eq_ofNat_of_zero_le (show 0 ≤ -exponentAt k by omega)
    have hunit : (2 : ℚ) ^ exponentAt k * 2 ^ n = 1 := by
      rw [show exponentAt k = -(n : Int) by omega, zpow_neg, zpow_natCast]
      field_simp
    have hscaled : |((j * 2 ^ n : Nat) : ℚ) - significandAt k| ≤ 1 / 2 := by
      have hfactor : ((j * 2 ^ n : Nat) : ℚ) - significandAt k = (j - sizeAt k) * 2 ^ n := by
        rw [sizeAt]
        push_cast
        linear_combination (significandAt k : ℚ) * hunit
      have hpos : (0 : ℚ) < 2 ^ n := by positivity
      have hmul := mul_le_mul_of_nonneg_right hnear hpos.le
      rw [hfactor, abs_mul, abs_of_pos hpos]
      linarith
    have hint : j * 2 ^ n = significandAt k := by
      have hlt : |((j * 2 ^ n : Nat) : Int) - significandAt k| < 1 := by
        have hcast : ((|((j * 2 ^ n : Nat) : Int) - significandAt k| : Int) : ℚ) < (1 : Int) := by
          push_cast at hscaled ⊢
          linarith
        exact_mod_cast hcast
      have hzero := Int.abs_lt_one_iff.mp hlt
      omega
    refine .inl ?_
    rw [sizeAt, ← hint]
    push_cast
    linear_combination -(j : ℚ) * hunit

end Small

end Conductor.Double
