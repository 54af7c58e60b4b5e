import Conductor.Numeric.Shortest
import Conductor.Proofs.Numeric.Interval

namespace Conductor

open Double

namespace Decimal

def value (d : Decimal) : ℚ := d.digits * 10 ^ d.power

theorem value_ofBinary (m : Nat) (e : Int) : (ofBinary m e).value = m * 2 ^ e := by
  rw [ofBinary]
  split
  · rename_i he
    obtain ⟨n, rfl⟩ := Int.eq_ofNat_of_zero_le he
    change ((m * 2 ^ n : Nat) : ℚ) * 10 ^ (0 : Int) = _
    push_cast
    rw [mul_one, zpow_natCast]
  · rename_i he
    obtain ⟨n, hn⟩ := Int.eq_ofNat_of_zero_le (show 0 ≤ -e by omega)
    obtain rfl : e = -(n : Int) := by omega
    rw [neg_neg, Int.toNat_natCast]
    change ((m * 5 ^ n : Nat) : ℚ) * 10 ^ (-(n : Int)) = _
    have hten : (10 : ℚ) ^ n = 5 ^ n * 2 ^ n := by rw [← mul_pow]; norm_num
    rw [zpow_neg, zpow_neg, zpow_natCast, zpow_natCast, hten]
    push_cast
    field_simp

end Decimal

namespace Shortest

-- The factor that makes the units of the last places whole.
def scale (e p : Int) : ℚ := 2 ^ (2 - e).toNat * 10 ^ (-p).toNat

theorem scale_pos (e p : Int) : 0 < scale e p := by
  unfold scale
  positivity

theorem zpow_mul_pow_toNat {b : ℚ} (hb : b ≠ 0) (z : Int) :
    b ^ z * b ^ (-z).toNat = b ^ z.toNat := by
  rw [← zpow_natCast, ← zpow_natCast, ← zpow_add₀ hb]
  congr 1
  omega

theorem binaryUnit_eq (e p : Int) : (binaryUnit e p : ℚ) = 2 ^ (e - 2) * scale e p := by
  have hunit : (binaryUnit e p : ℚ) = 2 ^ (e - 2).toNat * 10 ^ (-p).toNat := by
    change ((2 ^ (e - 2).toNat * 10 ^ (-p).toNat : Nat) : ℚ) = _
    push_cast
    rfl
  rw [hunit, ← zpow_mul_pow_toNat (b := 2) (by norm_num), scale, neg_sub]
  ring

theorem decimalUnit_eq (e p : Int) : (decimalUnit e p : ℚ) = 10 ^ p * scale e p := by
  have hunit : (decimalUnit e p : ℚ) = 2 ^ (2 - e).toNat * 10 ^ p.toNat := by
    change ((2 ^ (2 - e).toNat * 10 ^ p.toNat : Nat) : ℚ) = _
    push_cast
    rfl
  rw [hunit, ← zpow_mul_pow_toNat (b := 10) (by norm_num), scale]
  ring

section Grid

variable {k : Nat} {p : Int}

theorem upper_eq (k : Nat) : upper (significandAt k) * (2 : ℚ) ^ (exponentAt k - 2) = above k := by
  rw [above, sizeAt_succ, sizeAt, upper, zpow_sub₀ (by norm_num)]
  push_cast
  ring

theorem lower_eq (hk : 0 < k) :
    lower (significandAt k) (exponentAt k) * (2 : ℚ) ^ (exponentAt k - 2) = below k := by
  obtain ⟨k, rfl⟩ := Nat.exists_eq_add_one_of_ne_zero (Nat.ne_of_gt hk)
  rw [below, above, sizeAt_succ, sizeAt, lower]
  obtain ⟨hs, he, hdense⟩ | ⟨hs, hs', he, hdense⟩ := successor k
  · rw [if_neg hdense, hs, he, zpow_sub₀ (by norm_num), Nat.cast_sub (by omega)]
    push_cast
    ring
  · have hsize : (significandAt k : ℚ) + 1 = 2 * hiddenBit := by exact_mod_cast hs
    have hexponent : exponentAt k + 1 - 2 = exponentAt k - 1 := by omega
    rw [if_pos ⟨hs', hdense⟩, hs', he, hexponent, zpow_sub₀ (by norm_num),
      Nat.cast_sub (by decide)]
    push_cast
    linear_combination -(2 : ℚ) ^ exponentAt k * hsize

-- Numbers made whole by one factor compare as before.
theorem whole_le_iff {a b : Nat} {q r factor : ℚ} (hpos : 0 < factor) (ha : (a : ℚ) = q * factor)
    (hb : (b : ℚ) = r * factor) : a ≤ b ↔ q ≤ r := by
  rw [← mul_le_mul_iff_of_pos_right hpos, ← ha, ← hb, Nat.cast_le]

theorem whole_lt_iff {a b : Nat} {q r factor : ℚ} (hpos : 0 < factor) (ha : (a : ℚ) = q * factor)
    (hb : (b : ℚ) = r * factor) : a < b ↔ q < r := by
  rw [← not_le, ← not_le, whole_le_iff hpos hb ha]

theorem point_eq (k : Nat) (p : Int) (d : Nat) :
    ((d * decimalUnit (exponentAt k) p : Nat) : ℚ) = d * 10 ^ p * scale (exponentAt k) p := by
  rw [Nat.cast_mul, decimalUnit_eq, mul_assoc]

-- The test for reading back holds of the decimals that round to the magnitude.
theorem readsBack_iff (hk : 0 < k) {d : Nat} :
    readsBack (significandAt k) (exponentAt k) d p = true ↔ Rounds k (d * 10 ^ p) := by
  have hpos := scale_pos (exponentAt k) p
  have hlow : ((lower (significandAt k) (exponentAt k) * binaryUnit (exponentAt k) p : Nat) : ℚ) =
      below k * scale (exponentAt k) p := by
    rw [Nat.cast_mul, binaryUnit_eq, ← mul_assoc, lower_eq hk]
  have hhigh : ((upper (significandAt k) * binaryUnit (exponentAt k) p : Nat) : ℚ) =
      above k * scale (exponentAt k) p := by
    rw [Nat.cast_mul, binaryUnit_eq, ← mul_assoc, upper_eq]
  have hpoint := point_eq k p d
  rw [readsBack]
  simp only [significandAt_mod_two, apply_ite (· = true), decide_eq_true_eq,
    whole_le_iff hpos hlow hpoint, whole_le_iff hpos hpoint hhigh, whole_lt_iff hpos hlow hpoint,
    whole_lt_iff hpos hpoint hhigh]
  split
  · exact ⟨fun h => ⟨h.1, h.2, by omega⟩, fun h => ⟨h.low, h.high⟩⟩
  · exact ⟨fun h => ⟨h.1.le, h.2.le, fun _ => h⟩, fun h => h.strict (by omega)⟩

-- The point of the grid at or below the number.
def down (k : Nat) (p : Int) : Nat :=
  4 * significandAt k * binaryUnit (exponentAt k) p / decimalUnit (exponentAt k) p

section Neighbours

variable (k : Nat) (p : Int)

theorem number_eq : ((4 * significandAt k * binaryUnit (exponentAt k) p : Nat) : ℚ) =
    sizeAt k * scale (exponentAt k) p := by
  have hfour : (2 : ℚ) ^ exponentAt k = 4 * 2 ^ (exponentAt k - 2) := by
    rw [zpow_sub₀ (by norm_num)]
    ring
  rw [Nat.cast_mul, binaryUnit_eq, sizeAt, hfour]
  push_cast
  ring

theorem decimalUnit_pos : 0 < decimalUnit (exponentAt k) p :=
  Nat.mul_pos (Nat.pow_pos (by decide)) (Nat.pow_pos (by decide))

theorem down_le : down k p * (10 : ℚ) ^ p ≤ sizeAt k := by
  rw [← whole_le_iff (scale_pos (exponentAt k) p) (point_eq k p _) (number_eq k p)]
  exact Nat.div_mul_le_self _ _

theorem lt_down_succ : sizeAt k < (down k p + 1 : Nat) * (10 : ℚ) ^ p := by
  rw [← whole_lt_iff (scale_pos (exponentAt k) p) (number_eq k p) (point_eq k p _),
    Nat.mul_comm (down k p + 1)]
  exact Nat.lt_mul_div_succ _ (decimalUnit_pos k p)

-- The lower neighbour is the nearer one.
theorem preferDown_iff :
    2 * (4 * significandAt k * binaryUnit (exponentAt k) p % decimalUnit (exponentAt k) p) <
        decimalUnit (exponentAt k) p ↔ 2 * sizeAt k < (2 * down k p + 1 : Nat) * (10 : ℚ) ^ p := by
  have htwice : ((2 * (4 * significandAt k * binaryUnit (exponentAt k) p) : Nat) : ℚ) =
      2 * sizeAt k * scale (exponentAt k) p := by
    rw [Nat.cast_mul, number_eq]
    push_cast
    ring
  rw [← whole_lt_iff (scale_pos (exponentAt k) p) htwice (point_eq k p _), down]
  have hsum := Nat.div_add_mod (4 * significandAt k * binaryUnit (exponentAt k) p)
    (decimalUnit (exponentAt k) p)
  generalize 4 * significandAt k * binaryUnit (exponentAt k) p = number at hsum ⊢
  rw [Nat.add_mul, Nat.mul_assoc, Nat.mul_comm (number / _), Nat.one_mul]
  omega

end Neighbours

-- A point of a grid that rounds to the magnitude, as near as any and the larger of two.
structure NearestOn (k : Nat) (p : Int) (c : Nat) : Prop where
  rounds : Rounds k (c * 10 ^ p)
  near : ∀ j : Nat, Rounds k (j * 10 ^ p) → |c * 10 ^ p - sizeAt k| < |j * 10 ^ p - sizeAt k| ∨
    |c * 10 ^ p - sizeAt k| = |j * 10 ^ p - sizeAt k| ∧ j ≤ c

-- No point of a grid rounds to the magnitude.
def Barren (k : Nat) (p : Int) : Prop := ∀ j : Nat, ¬Rounds k (j * 10 ^ p)

theorem zpow_ten_pos (p : Int) : (0 : ℚ) < 10 ^ p := by positivity

theorem point_le {i j : Nat} (p : Int) (h : i ≤ j) : (i : ℚ) * 10 ^ p ≤ j * 10 ^ p :=
  mul_le_mul_of_nonneg_right (Nat.cast_le.mpr h) (zpow_ten_pos p).le

theorem point_lt {i j : Nat} (p : Int) (h : i < j) : (i : ℚ) * 10 ^ p < j * 10 ^ p :=
  mul_lt_mul_of_pos_right (Nat.cast_lt.mpr h) (zpow_ten_pos p)

theorem distance_of_le {j : Nat} (h : j ≤ down k p) :
    |j * (10 : ℚ) ^ p - sizeAt k| = sizeAt k - j * 10 ^ p := by
  rw [abs_sub_comm]
  exact abs_of_nonneg (sub_nonneg.mpr ((point_le p h).trans (down_le k p)))

theorem distance_of_lt {j : Nat} (h : down k p < j) :
    |j * (10 : ℚ) ^ p - sizeAt k| = j * 10 ^ p - sizeAt k :=
  abs_of_nonneg (sub_nonneg.mpr ((lt_down_succ k p).le.trans (point_le p h)))

-- If any point at or below the number rounds to it, the nearest of them does, and so above.
theorem rounds_down {j : Nat} (h : j ≤ down k p) (hj : Rounds k (j * 10 ^ p)) :
    Rounds k (down k p * 10 ^ p) :=
  hj.between (rounds_sizeAt k) (point_le p h) (down_le k p)

theorem rounds_up {j : Nat} (h : down k p < j) (hj : Rounds k (j * 10 ^ p)) :
    Rounds k ((down k p + 1 : Nat) * 10 ^ p) :=
  (rounds_sizeAt k).between hj (lt_down_succ k p).le (point_le p h)

theorem nearestOn_down (h : Rounds k (down k p * 10 ^ p))
    (hup : Rounds k ((down k p + 1 : Nat) * 10 ^ p) →
      2 * sizeAt k < (2 * down k p + 1 : Nat) * (10 : ℚ) ^ p) : NearestOn k p (down k p) := by
  refine ⟨h, fun j hj => ?_⟩
  rw [distance_of_le (Nat.le_refl _)]
  by_cases hle : j ≤ down k p
  · rw [distance_of_le hle]
    obtain hlt | rfl := Nat.lt_or_eq_of_le hle
    · exact .inl (by linarith [point_lt p hlt])
    · exact .inr ⟨rfl, Nat.le_refl _⟩
  · have hlt := Nat.lt_of_not_le hle
    have hnear := hup (rounds_up hlt hj)
    have hpoint := point_le p hlt
    rw [distance_of_lt hlt]
    left
    push_cast at hnear hpoint
    linarith

theorem nearestOn_up (h : Rounds k ((down k p + 1 : Nat) * 10 ^ p))
    (hdown : Rounds k (down k p * 10 ^ p) →
      ¬2 * sizeAt k < (2 * down k p + 1 : Nat) * (10 : ℚ) ^ p) : NearestOn k p (down k p + 1) := by
  refine ⟨h, fun j hj => ?_⟩
  rw [distance_of_lt (Nat.lt_succ_self _)]
  by_cases hle : j ≤ down k p
  · have hnear := not_lt.mp (hdown (rounds_down hle hj))
    have hpoint := point_le p hle
    rw [distance_of_le hle]
    push_cast at hnear ⊢
    obtain hlt | heq := (show (down k p + 1) * (10 : ℚ) ^ p - sizeAt k ≤ sizeAt k - j * 10 ^ p by
      linarith).lt_or_eq
    · exact .inl hlt
    · exact .inr ⟨heq, by omega⟩
  · have hlt := Nat.lt_of_not_le hle
    rw [distance_of_lt hlt]
    obtain hlt | rfl := Nat.lt_or_eq_of_le (Nat.succ_le_of_lt hlt)
    · exact .inl (by linarith [point_lt p hlt])
    · exact .inr ⟨rfl, Nat.le_refl _⟩

-- The search on one grid finds the nearest point that rounds to the number if there is one.
theorem onGrid_cases (hk : 0 < k) (p : Int) :
    (∃ c, onGrid (significandAt k) (exponentAt k) p = some ⟨c, p⟩ ∧ NearestOn k p c) ∨
      onGrid (significandAt k) (exponentAt k) p = none ∧ Barren k p := by
  have hprefer := preferDown_iff k p
  have hlow := readsBack_iff hk (p := p) (d := down k p)
  have hup := readsBack_iff hk (p := p) (d := down k p + 1)
  rw [onGrid, ← down]
  cases hdown : readsBack (significandAt k) (exponentAt k) (down k p) p <;>
    cases hsucc : readsBack (significandAt k) (exponentAt k) (down k p + 1) p <;>
    simp only [hdown, hsucc, Bool.false_eq_true, false_iff, true_iff] at hlow hup ⊢
  · refine .inr ⟨trivial, fun j hj => ?_⟩
    by_cases hle : j ≤ down k p
    · exact hlow (rounds_down hle hj)
    · exact hup (rounds_up (Nat.lt_of_not_le hle) hj)
  · exact .inl ⟨_, rfl, nearestOn_up hup fun h => absurd h hlow⟩
  · exact .inl ⟨_, rfl, nearestOn_down hlow fun h => absurd h hup⟩
  · refine .inl ⟨_, rfl, ?_⟩
    simp only [decide_eq_true_eq, hprefer]
    split
    · rename_i hnear
      exact nearestOn_down hlow fun _ => hnear
    · rename_i hnear
      exact nearestOn_up hup fun _ => hnear

-- The power of the grids that the search tests, from coarse to fine.
def gridAt (k i : Nat) : Int := topPower (significandAt k) (exponentAt k) - i

-- The search stops at the first grid that is not barren, or all of them are.
theorem decimal_cases (hk : 0 < k) :
    (∃ i c : Nat, i < 20 ∧ decimal (significandAt k) (exponentAt k) = ⟨c, gridAt k i⟩ ∧
      NearestOn k (gridAt k i) c ∧ ∀ j < i, Barren k (gridAt k j)) ∨
    decimal (significandAt k) (exponentAt k) =
      Decimal.ofBinary (significandAt k) (exponentAt k) ∧ ∀ i < 20, Barren k (gridAt k i) := by
  have hgrid (i : Nat) := onGrid_cases hk (gridAt k i)
  have hbarren {i : Nat} (h : onGrid (significandAt k) (exponentAt k) (gridAt k i) = none) :
      Barren k (gridAt k i) := by
    obtain ⟨c, hc, _⟩ | ⟨_, hnone⟩ := hgrid i
    · rw [h] at hc
      cases hc
    · exact hnone
  rw [decimal]
  cases hfind : (List.range 20).findSome? fun (i : Nat) =>
      onGrid (significandAt k) (exponentAt k) (topPower (significandAt k) (exponentAt k) - i) with
  | none =>
    refine .inr ⟨rfl, fun i hi => hbarren ?_⟩
    exact List.findSome?_eq_none_iff.mp hfind i (List.mem_range.mpr hi)
  | some d =>
    obtain ⟨before, i, after, hrange, hhit, hbefore⟩ := List.findSome?_eq_some_iff.mp hfind
    have hi : i < 20 := List.mem_range.mp (hrange ▸ by simp)
    obtain ⟨c, hc, hnearest⟩ | ⟨hnone, _⟩ := hgrid i
    · rw [gridAt, hhit] at hc
      refine .inl ⟨i, c, hi, Option.some.inj hc, hnearest, fun j hj => hbarren (hbefore j ?_)⟩
      -- The numbers before `i` in the range are those below it.
      have hsorted : (before ++ i :: after).Pairwise (· < ·) := hrange ▸ List.pairwise_lt_range
      have hafter := (List.pairwise_cons.mp (List.pairwise_append.mp hsorted).2.1).1 j
      have hmem : j ∈ before ++ i :: after := hrange ▸ List.mem_range.mpr (by omega)
      simp only [List.mem_append, List.mem_cons] at hmem
      obtain hmem | rfl | hmem := hmem
      · exact hmem
      · omega
      · exact absurd (hafter hmem) (by omega)
    · rw [gridAt, hhit] at hnone
      cases hnone

variable (hk : 0 < k)
include hk

-- The decimal of a double reads back as the double.
theorem rounds_decimal : Rounds k (decimal (significandAt k) (exponentAt k)).value := by
  obtain ⟨i, _, c, hd, hnearest, _⟩ | ⟨hd, _⟩ := decimal_cases hk
  · rw [hd]
    exact hnearest.rounds
  · rw [hd, Decimal.value_ofBinary]
    exact rounds_sizeAt k

-- The number of a double lies between two powers of two.
theorem two_pow_le_sizeAt :
    (2 : ℚ) ^ ((significandAt k).log2 + exponentAt k) ≤ sizeAt k := by
  have hlog : ((2 ^ (significandAt k).log2 : Nat) : ℚ) ≤ significandAt k :=
    Nat.cast_le.mpr (Nat.log2_self_le (Nat.ne_of_gt (significandAt_pos hk)))
  rw [sizeAt, zpow_add₀ (by norm_num), zpow_natCast]
  push_cast at hlog
  exact mul_le_mul_of_nonneg_right hlog (by positivity)

omit hk in
theorem above_le_two_pow (k : Nat) :
    above k ≤ (2 : ℚ) ^ ((significandAt k).log2 + 1 + exponentAt k) := by
  have hlog : ((significandAt k + 1 : Nat) : ℚ) ≤ (2 ^ ((significandAt k).log2 + 1) : Nat) :=
    Nat.cast_le.mpr Nat.lt_log2_self
  have hpos : (0 : ℚ) < 2 ^ exponentAt k := by positivity
  calc above k ≤ (significandAt k + 1 : Nat) * 2 ^ exponentAt k := by
        rw [above, sizeAt_succ, sizeAt]
        push_cast
        linarith
    _ ≤ (2 ^ ((significandAt k).log2 + 1) : Nat) * 2 ^ exponentAt k :=
        mul_le_mul_of_nonneg_right hlog hpos.le
    _ = (2 : ℚ) ^ ((significandAt k).log2 + 1 + exponentAt k) := by
        rw [zpow_add₀ (by norm_num), ← Nat.cast_succ, zpow_natCast]
        push_cast
        rfl

end Grid

-- The coarsest grid tested lies above every number below two to the bits.
theorem two_pow_lt_ten_pow :
    ∀ bits < 65, Nat.pow 2 bits < Nat.pow 10 (bits * 30103 / 100000 + 1) := by decide

section Integers

variable {k n : Nat}

-- The doubles that integers of at most 64 bits round to.
theorem sizeAt_le_of_rounds (hn : n ≤ 2 ^ 63) (h : Rounds k n) : sizeAt k ≤ 2 ^ 63 := by
  have hlargest : nearestMagnitude (2 ^ 63) = 1085 * hiddenBit + hiddenBit := by decide +kernel
  have hle : k ≤ 1085 * hiddenBit + hiddenBit := by
    rw [← hlargest, ← nearestMagnitude_eq_iff.mpr h]
    exact nearestMagnitude_mono hn
  refine (sizeAt_strictMono.monotone hle).trans ?_
  rw [sizeAt_fields _ (Nat.le_refl _) (by decide), hiddenBit]
  norm_num

theorem exists_bits (hk : 0 < k) (hn : n ≤ 2 ^ 63) (h : Rounds k n) :
    ∃ bits ≤ 64, topPower (significandAt k) (exponentAt k) = (bits * 30103 / 100000 + 1 : Nat) ∧
      above k ≤ 2 ^ bits ∧ (bits = 64 → sizeAt k = 2 ^ 63) := by
  have hlow := two_pow_le_sizeAt hk
  have hhigh := above_le_two_pow k
  have hsize := sizeAt_le_of_rounds hn h
  have hpos : 1 ≤ n := by exact_mod_cast h.pos hk
  have hone : (1 : ℚ) ≤ n := by exact_mod_cast hpos
  have hnonneg : 0 ≤ ((significandAt k).log2 : Int) + 1 + exponentAt k := by
    refine (zpow_le_zpow_iff_right₀ (show (1 : ℚ) < 2 by norm_num)).mp ?_
    rw [zpow_zero]
    exact hone.trans (h.high.trans hhigh)
  have hbound : ((significandAt k).log2 : Int) + exponentAt k ≤ 63 := by
    refine (zpow_le_zpow_iff_right₀ (show (1 : ℚ) < 2 by norm_num)).mp ?_
    exact_mod_cast hlow.trans hsize
  obtain ⟨bits, hbits⟩ := Int.eq_ofNat_of_zero_le hnonneg
  refine ⟨bits, by omega, ?_, ?_, ?_⟩
  · rw [topPower, hbits]
    omega
  · rw [hbits] at hhigh
    exact_mod_cast hhigh
  · rintro rfl
    have hexponent : ((significandAt k).log2 : Int) + exponentAt k = 63 := by omega
    rw [hexponent] at hlow
    exact le_antisymm hsize (by exact_mod_cast hlow)

-- Powers of ten that divide an integer that rounds to the double are on grids that the search
-- tests.
theorem lt_topPower (hk : 0 < k) (hn : n ≤ 2 ^ 63) (h : Rounds k n) {j q : Nat} (hj : Rounds k j)
    (hq : 10 ^ q ∣ j) : (q : Int) < topPower (significandAt k) (exponentAt k) := by
  obtain ⟨bits, hbits, htop, habove, _⟩ := exists_bits hk hn h
  have hpos : 0 < j := by exact_mod_cast hj.pos hk
  have hle : j ≤ 2 ^ bits := by exact_mod_cast hj.high.trans habove
  have hlt : 10 ^ q < 10 ^ (bits * 30103 / 100000 + 1) :=
    (Nat.le_of_dvd hpos hq).trans_lt (hle.trans_lt (two_pow_lt_ten_pow bits (by omega)))
  rw [htop]
  exact_mod_cast (Nat.pow_lt_pow_iff_right (by decide)).mp hlt

-- Some grid of whole numbers that the search tests is not barren. The largest double needs one
-- that is coarser than the integers.
theorem exists_whole_grid (hk : 0 < k) (hn : n ≤ 2 ^ 63) (h : Rounds k n) :
    ∃ i < 20, 0 ≤ gridAt k i ∧ ¬Barren k (gridAt k i) := by
  obtain ⟨bits, hbits, htop, _, hlargest⟩ := exists_bits hk hn h
  by_cases hsmall : bits < 64
  · refine ⟨bits * 30103 / 100000 + 1, by omega, ?_, fun hbarren => hbarren n ?_⟩
    · rw [gridAt, htop, sub_self]
    · rwa [gridAt, htop, sub_self, zpow_zero, mul_one]
  · have hbits : bits = 64 := by omega
    subst hbits
    have hround : Rounds k (2 ^ 63 : Nat) := by
      have hsize := rounds_sizeAt k
      rw [hlargest rfl] at hsize
      exact_mod_cast hsize
    have hshort : Rounds k (9223372036854776000 : Nat) := by
      rw [← nearestMagnitude_eq_iff] at hround ⊢
      rw [← hround]
      decide +kernel
    refine ⟨17, by decide, ?_, fun hbarren => hbarren 9223372036854776 ?_⟩
    · rw [gridAt, htop]
      decide
    · have hgrid : gridAt k 17 = 3 := by
        rw [gridAt, htop]
        rfl
      rw [hgrid]
      norm_num at hshort ⊢
      exact hshort

-- The decimal of a double that an integer rounds to is whole, of the coarsest grid that any such
-- integer lies on.
theorem decimal_of_rounds (hk : 0 < k) (hn : n ≤ 2 ^ 63) (h : Rounds k n) :
    ∃ c p : Nat, decimal (significandAt k) (exponentAt k) = ⟨c, p⟩ ∧ NearestOn k p c ∧
      ∀ j q : Nat, Rounds k j → 10 ^ q ∣ j → q ≤ p := by
  obtain ⟨whole, hwhole, hnonneg, hpoint⟩ := exists_whole_grid hk hn h
  obtain ⟨i, c, hi, hd, hnearest, hbarren⟩ | ⟨_, hbarren⟩ := decimal_cases hk
  · have hle : i ≤ whole := Nat.not_lt.mp fun hlt => hpoint (hbarren whole hlt)
    obtain ⟨p, hp⟩ := Int.eq_ofNat_of_zero_le (show 0 ≤ gridAt k i by
      rw [gridAt] at hnonneg ⊢
      omega)
    rw [hp] at hd hnearest
    refine ⟨c, p, hd, hnearest, fun j q hj hq => Nat.not_lt.mp fun hlt => ?_⟩
    -- A coarser grid with a point would have been tested first.
    have htop := lt_topPower hk hn h hj hq
    obtain ⟨i', hi'⟩ := Int.eq_ofNat_of_zero_le
      (show 0 ≤ topPower (significandAt k) (exponentAt k) - q by omega)
    obtain ⟨b, rfl⟩ := hq
    rw [gridAt] at hp
    have hgrid : gridAt k i' = q := by
      rw [gridAt]
      omega
    refine hbarren i' (by omega) b ?_
    rw [hgrid, zpow_natCast]
    push_cast at hj
    rwa [mul_comm]
  · exact absurd (hbarren whole hwhole) hpoint

-- An integer that rounds to the double, of the most zeros at its end, as near as any of those, and
-- the larger of two.
structure Whole (k n : Nat) : Prop where
  rounds : Rounds k n
  short : ∀ j q : Nat, Rounds k j → 10 ^ q ∣ j → 10 ^ q ∣ n
  near : ∀ j : Nat, Rounds k j → (∀ q, 10 ^ q ∣ n → 10 ^ q ∣ j) →
    |(n : ℚ) - sizeAt k| < |j - sizeAt k| ∨ |(n : ℚ) - sizeAt k| = |j - sizeAt k| ∧ j ≤ n

-- That integer is what the search finds.
theorem whole_iff (hk : 0 < k) (hn : n ≤ 2 ^ 63) :
    Whole k n ↔
      ∃ c p : Nat, decimal (significandAt k) (exponentAt k) = ⟨c, p⟩ ∧ c * 10 ^ p = n := by
  constructor
  · intro h
    obtain ⟨c, p, hd, hnearest, hcoarsest⟩ := decimal_of_rounds hk hn h.rounds
    have hround : Rounds k ((c * 10 ^ p : Nat) : ℚ) := by exact_mod_cast hnearest.rounds
    obtain ⟨b, rfl⟩ := h.short _ p hround (Nat.dvd_mul_left _ _)
    have hnear := h.near _ hround fun q hq =>
      Nat.dvd_trans (Nat.pow_dvd_pow 10 (hcoarsest _ q h.rounds hq)) (Nat.dvd_mul_left _ _)
    have hgrid := hnearest.near b (by
      have hb := h.rounds
      push_cast at hb
      rwa [zpow_natCast, mul_comm])
    refine ⟨c, p, hd, ?_⟩
    rw [zpow_natCast] at hgrid
    push_cast at hnear
    rw [mul_comm ((10 : ℚ) ^ p)] at hnear
    -- Each of the two is as near as the other and as large.
    obtain hlt | ⟨heq, hle⟩ := hnear
    · obtain hlt' | ⟨heq', _⟩ := hgrid <;> linarith
    obtain hlt' | ⟨_, hle'⟩ := hgrid
    · linarith
    · rw [Nat.mul_comm] at hle ⊢
      exact Nat.le_antisymm hle (Nat.mul_le_mul_left _ hle')
  · rintro ⟨c, p, hd, rfl⟩
    have hround := rounds_decimal hk
    rw [hd, Decimal.value, zpow_natCast] at hround
    obtain ⟨c', p', hd', hnearest, hcoarsest⟩ :=
      decimal_of_rounds hk hn (by exact_mod_cast hround)
    rw [hd] at hd'
    cases hd'
    refine ⟨by exact_mod_cast hround, fun j q hj hq => ?_, fun j hj hzeros => ?_⟩
    · exact Nat.dvd_trans (Nat.pow_dvd_pow 10 (hcoarsest j q hj hq)) (Nat.dvd_mul_left _ _)
    · obtain ⟨b, rfl⟩ := hzeros p (Nat.dvd_mul_left _ _)
      have hnear := hnearest.near b (by
        push_cast at hj
        rwa [zpow_natCast, mul_comm])
      rw [zpow_natCast] at hnear
      push_cast
      rw [mul_comm ((10 : ℚ) ^ p)]
      refine hnear.imp_right fun h => ⟨h.1, ?_⟩
      rw [Nat.mul_comm]
      exact Nat.mul_le_mul_right _ h.2

theorem eq_zero_of_pow_dvd_odd {j q : Nat} (hodd : j % 2 = 1) (hq : 10 ^ q ∣ j) : q = 0 := by
  by_contra hne
  have htwo : 2 ∣ j := (by decide : 2 ∣ 10).trans ((dvd_pow_self 10 hne).trans hq)
  omega

-- A small double is written as its number.
theorem whole_iff_eq_sizeAt (h : sizeAt k < 2 ^ 54) {n : Nat} : Whole k n ↔ (n : ℚ) = sizeAt k := by
  constructor
  · intro hwhole
    obtain heq | ⟨hodd, hsize⟩ := rounds_small h hwhole.rounds
    · exact heq
    -- The even number itself ends in as many zeros and is nearer.
    have hnear := hwhole.near (2 * significandAt k) (hsize ▸ rounds_sizeAt k) fun q hq => by
      rw [eq_zero_of_pow_dvd_odd hodd hq]
      exact one_dvd _
    rw [← hsize, sub_self, abs_zero] at hnear
    obtain hlt | ⟨hzero, _⟩ := hnear
    · exact absurd hlt (not_lt.mpr (abs_nonneg _))
    · exact sub_eq_zero.mp (abs_eq_zero.mp hzero)
  · intro heq
    refine ⟨heq ▸ rounds_sizeAt k, fun j q hj hq => ?_, fun j hj _ => ?_⟩
    · obtain hsame | ⟨hodd, _⟩ := rounds_small h hj
      · obtain rfl : j = n := by exact_mod_cast hsame.trans heq.symm
        exact hq
      · rw [eq_zero_of_pow_dvd_odd hodd hq]
        exact one_dvd n
    · rw [heq, sub_self, abs_zero]
      obtain hpos | hzero := (abs_nonneg ((j : ℚ) - sizeAt k)).lt_or_eq
      · exact .inl hpos
      · refine .inr ⟨hzero, ?_⟩
        have hsame : (j : ℚ) = n := (sub_eq_zero.mp (abs_eq_zero.mp hzero.symm)).trans heq.symm
        exact Nat.le_of_eq (by exact_mod_cast hsame)

end Integers

end Shortest

end Conductor
