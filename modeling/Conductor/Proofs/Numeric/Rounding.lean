import Conductor.Numeric.Double
import Mathlib.Algebra.Order.Ring.Nat
import Mathlib.Tactic.Ring

namespace Conductor.Double

-- The nearest whole number to a quotient, ties to even.
def nearestQuotient (m unit : Nat) : Nat :=
  if unit < 2 * (m % unit) || (unit = 2 * (m % unit) && m / unit % 2 = 1) then m / unit + 1
  else m / unit

-- The significand of the double nearest to a positive number. It may be one too large, which
-- carries into the exponent.
def nearestSignificand (m : Nat) : Nat :=
  if m.log2 ≤ 52 then m * Nat.pow 2 (52 - m.log2) else nearestQuotient m (Nat.pow 2 (m.log2 - 52))

-- The magnitude of the double nearest to a number, if it is no infinity.
def nearestMagnitude (m : Nat) : Nat :=
  if m = 0 then 0 else (m.log2 + 1022) * hiddenBit + nearestSignificand m

theorem nearestQuotient_le_succ (m unit : Nat) :
    m / unit ≤ nearestQuotient m unit ∧ nearestQuotient m unit ≤ m / unit + 1 := by
  unfold nearestQuotient
  split <;> omega

theorem nearestQuotient_mono {m n : Nat} (unit : Nat) (h : m ≤ n) :
    nearestQuotient m unit ≤ nearestQuotient n unit := by
  have hdown := Nat.div_le_div_right (c := unit) h
  obtain hlt | heq := Nat.lt_or_eq_of_le hdown
  · have hm := (nearestQuotient_le_succ m unit).2
    have hn := (nearestQuotient_le_succ n unit).1
    omega
  · -- With equal quotients the remainders are in the order of the numbers.
    have hm := Nat.div_add_mod m unit
    have hn := Nat.div_add_mod n unit
    rw [heq] at hm
    have hrest : m % unit ≤ n % unit := by omega
    simp only [nearestQuotient, heq, Bool.or_eq_true, Bool.and_eq_true, decide_eq_true_eq]
    split <;> split <;> omega

theorem nearestQuotient_mul {s unit : Nat} (hunit : 0 < unit) :
    nearestQuotient (s * unit) unit = s := by
  have hne : unit ≠ 0 := Nat.ne_of_gt hunit
  simp [nearestQuotient, Nat.mul_mod_left, Nat.mul_div_left s hunit, hne]

theorem hiddenBit_eq : hiddenBit = 2 ^ 52 := by decide

theorem nearestSignificand_bounds {m : Nat} (hm : m ≠ 0) :
    hiddenBit ≤ nearestSignificand m ∧ nearestSignificand m ≤ 2 * hiddenBit := by
  have hlow := Nat.log2_self_le hm
  have hhigh := Nat.lt_log2_self (n := m)
  unfold nearestSignificand
  split
  · rename_i hsmall
    have hpos : 0 < 2 ^ (52 - m.log2) := Nat.two_pow_pos _
    have hjoin : 2 ^ m.log2 * 2 ^ (52 - m.log2) = 2 ^ 52 := by
      rw [← pow_add, Nat.add_sub_of_le hsmall]
    have hle := Nat.mul_le_mul_right (2 ^ (52 - m.log2)) hlow
    have hlt := Nat.mul_lt_mul_of_pos_right hhigh hpos
    rw [pow_succ, Nat.mul_assoc, Nat.mul_comm 2, ← Nat.mul_assoc, hjoin] at hlt
    rw [hjoin] at hle
    rw [hiddenBit_eq]
    change 2 ^ 52 ≤ m * 2 ^ (52 - m.log2) ∧ m * 2 ^ (52 - m.log2) ≤ 2 * 2 ^ 52
    omega
  · rename_i hlarge
    have hpos : 0 < 2 ^ (m.log2 - 52) := Nat.two_pow_pos _
    have hsplit : 2 ^ m.log2 = 2 ^ 52 * 2 ^ (m.log2 - 52) := by
      rw [← pow_add, Nat.add_sub_of_le (by omega)]
    rw [pow_succ, hsplit, Nat.mul_right_comm] at hhigh
    rw [hsplit] at hlow
    have hdown := (Nat.le_div_iff_mul_le hpos).mpr hlow
    have hup := (Nat.div_lt_iff_lt_mul hpos).mpr hhigh
    have hquotient := nearestQuotient_le_succ m (2 ^ (m.log2 - 52))
    rw [hiddenBit_eq]
    change 2 ^ 52 ≤ nearestQuotient m (2 ^ (m.log2 - 52)) ∧
      nearestQuotient m (2 ^ (m.log2 - 52)) ≤ 2 * 2 ^ 52
    omega

theorem nearestSignificand_mono {m n : Nat} (hlog : m.log2 = n.log2) (h : m ≤ n) :
    nearestSignificand m ≤ nearestSignificand n := by
  simp only [nearestSignificand, hlog]
  split
  · exact Nat.mul_le_mul_right _ h
  · exact nearestQuotient_mono _ h

theorem log2_mono {m n : Nat} (hm : m ≠ 0) (h : m ≤ n) : m.log2 ≤ n.log2 :=
  (Nat.le_log2 (by omega)).mpr (Nat.le_trans (Nat.log2_self_le hm) h)

theorem nearestMagnitude_mono {m n : Nat} (h : m ≤ n) :
    nearestMagnitude m ≤ nearestMagnitude n := by
  by_cases hm : m = 0
  · rw [nearestMagnitude, if_pos hm]
    exact Nat.zero_le _
  have hn : n ≠ 0 := by omega
  rw [nearestMagnitude, nearestMagnitude, if_neg hm, if_neg hn]
  obtain hlt | heq := Nat.lt_or_eq_of_le (log2_mono hm h)
  · have hcarry := (nearestSignificand_bounds hm).2
    have hleast := (nearestSignificand_bounds hn).1
    simp only [hiddenBit] at hcarry hleast ⊢
    omega
  · have hle := nearestSignificand_mono heq h
    rw [heq]
    omega

theorem nearestMagnitude_lt {m : Nat} (h : m < UInt64.size) :
    nearestMagnitude m < infiniteMagnitude := by
  by_cases hm : m = 0
  · rw [nearestMagnitude, if_pos hm]
    decide
  have hlog : m.log2 < 64 := (Nat.log2_lt hm).mpr h
  have hcarry := (nearestSignificand_bounds hm).2
  rw [nearestMagnitude, if_neg hm]
  simp only [infiniteMagnitude, hiddenBit] at hcarry ⊢
  omega

theorem round_integer (negative : Bool) (m : Nat) :
    round negative m 0 = ofParts negative (min infiniteMagnitude (nearestMagnitude m)) := by
  by_cases hm : m = 0
  · rw [round, nearestMagnitude, if_pos hm, if_pos hm]
    rfl
  have htarget : max ((0 : Int) + m.log2 - 52) (-1074) = m.log2 - 52 := by omega
  have hexponent : ((m.log2 : Int) - 52 + 1074).toNat = m.log2 + 1022 := by omega
  have hsmall : ((m.log2 : Int) - 52 ≤ 0) = (m.log2 ≤ 52) := by
    simp only [eq_iff_iff]
    omega
  have hup : ((0 : Int) - (m.log2 - 52)).toNat = 52 - m.log2 := by omega
  have hdown : ((m.log2 : Int) - 52 - 0).toNat = m.log2 - 52 := by omega
  rw [nearestMagnitude, if_neg hm]
  simp only [round, hm, ite_false, htarget, hexponent, hsmall, hup, hdown]
  rfl

theorem round_zero_exponent {negative : Bool} {m : Nat} (h : m < UInt64.size) :
    round negative m 0 = ofParts negative (nearestMagnitude m) := by
  rw [round_integer, Nat.min_eq_right (Nat.le_of_lt (nearestMagnitude_lt h))]

section Parts

variable {sign : Bool} {n : Nat}

theorem toNat_bits_ofParts (h : n < signBit) :
    (ofParts sign n).bits.toNat = (if sign then signBit else 0) + n := by
  refine UInt64.toNat_ofNat_of_lt ?_
  simp only [signBit, UInt64.size] at h ⊢
  split <;> omega

theorem magnitude_ofParts (h : n < signBit) : (ofParts sign n).magnitude = n := by
  rw [magnitude, toNat_bits_ofParts h]
  cases sign
  · simp [Nat.mod_eq_of_lt h]
  · simp [Nat.mod_eq_of_lt h]

theorem negative_ofParts (h : n < signBit) : (ofParts sign n).negative = sign := by
  rw [negative, toNat_bits_ofParts h]
  cases sign
  · simpa using h
  · simp

theorem rank_ofParts (h : n < signBit) :
    (ofParts sign n).rank = if sign then -(n : Int) else n := by
  rw [rank, negative_ofParts h, magnitude_ofParts h]

end Parts

theorem infiniteMagnitude_lt : infiniteMagnitude < signBit := by decide

theorem magnitude_ofInt {n : Int} (h : n.natAbs < UInt64.size) :
    (ofInt n).magnitude = nearestMagnitude n.natAbs := by
  rw [ofInt, round_zero_exponent h]
  exact magnitude_ofParts (Nat.lt_trans (nearestMagnitude_lt h) infiniteMagnitude_lt)

theorem rank_ofInt {n : Int} (h : n.natAbs < UInt64.size) :
    (ofInt n).rank =
      if n < 0 then -(nearestMagnitude n.natAbs : Int) else nearestMagnitude n.natAbs := by
  rw [ofInt, round_zero_exponent h,
    rank_ofParts (Nat.lt_trans (nearestMagnitude_lt h) infiniteMagnitude_lt)]
  simp only [decide_eq_true_eq]

theorem isNaN_ofInt {n : Int} (h : n.natAbs < UInt64.size) : (ofInt n).isNaN = false := by
  rw [isNaN, magnitude_ofInt h]
  exact decide_eq_false (Nat.not_lt.mpr (Nat.le_of_lt (nearestMagnitude_lt h)))

-- Rounding never turns the order of two integers round.
theorem rank_ofInt_mono {m n : Int} (hm : m.natAbs < UInt64.size) (hn : n.natAbs < UInt64.size)
    (h : m ≤ n) : (ofInt m).rank ≤ (ofInt n).rank := by
  rw [rank_ofInt hm, rank_ofInt hn]
  split <;> split
  · have hle := nearestMagnitude_mono (show n.natAbs ≤ m.natAbs by omega)
    omega
  · omega
  · omega
  · have hle := nearestMagnitude_mono (show m.natAbs ≤ n.natAbs by omega)
    omega

section Exact

variable {s v : Nat}

theorem log2_mul_two_pow {s e : Nat} (hlow : hiddenBit ≤ s) (hhigh : s < 2 * hiddenBit) :
    (s * 2 ^ e).log2 = 52 + e := by
  rw [hiddenBit_eq] at hlow hhigh
  have hpos : 0 < 2 ^ e := Nat.two_pow_pos e
  have hne : s * 2 ^ e ≠ 0 := Nat.mul_ne_zero (by omega) (by omega)
  refine (Nat.log2_eq_iff hne).mpr ⟨?_, ?_⟩
  · rw [pow_add]
    exact Nat.mul_le_mul_right _ hlow
  · rw [Nat.add_right_comm, pow_add]
    exact Nat.mul_lt_mul_of_pos_right (by omega) hpos

-- A significand with room below it or above it is its own nearest significand.
theorem nearestMagnitude_mul_two_pow {e : Nat} (hlow : hiddenBit ≤ s) (hhigh : s < 2 * hiddenBit) :
    nearestMagnitude (s * 2 ^ e) = (e + 1074) * hiddenBit + s := by
  have hpos : 0 < 2 ^ e := Nat.two_pow_pos e
  have hlog := log2_mul_two_pow (e := e) hlow hhigh
  have hne : s * 2 ^ e ≠ 0 := by
    have hs : 0 < hiddenBit := by decide
    exact Nat.mul_ne_zero (by omega) (by omega)
  rw [nearestMagnitude, if_neg hne, nearestSignificand, hlog]
  have hexponent : 52 + e + 1022 = e + 1074 := by omega
  rw [hexponent]
  by_cases he : e = 0
  · subst he
    simp
  · rw [if_neg (by omega), Nat.add_sub_cancel_left]
    change _ + nearestQuotient (s * 2 ^ e) (2 ^ e) = _
    rw [nearestQuotient_mul hpos]

theorem nearestMagnitude_of_mul_two_pow {j : Nat} (hlow : hiddenBit ≤ v * 2 ^ j)
    (hhigh : v * 2 ^ j < 2 * hiddenBit) (hj : j ≤ 52) :
    nearestMagnitude v = (1074 - j) * hiddenBit + v * 2 ^ j := by
  have hpos : 0 < 2 ^ j := Nat.two_pow_pos j
  have hne : v ≠ 0 := by
    rintro rfl
    rw [Nat.zero_mul] at hlow
    exact absurd hlow (by decide)
  have hlog : v.log2 = 52 - j := by
    have hsplit : 2 ^ (52 - j) * 2 ^ j = 2 ^ 52 := by rw [← pow_add, Nat.sub_add_cancel hj]
    have hsplitSucc : 2 ^ (52 - j + 1) * 2 ^ j = 2 * 2 ^ 52 := by
      rw [pow_succ, Nat.mul_right_comm, hsplit, Nat.mul_comm]
    rw [hiddenBit_eq] at hlow hhigh
    rw [← hsplit] at hlow
    rw [← hsplitSucc] at hhigh
    exact (Nat.log2_eq_iff hne).mpr
      ⟨Nat.le_of_mul_le_mul_right hlow hpos, Nat.lt_of_mul_lt_mul_right hhigh⟩
  rw [nearestMagnitude, if_neg hne, nearestSignificand, hlog, if_pos (by omega)]
  have hback : 52 - (52 - j) = j := by omega
  have hexponent : 52 - j + 1022 = 1074 - j := by omega
  rw [hback, hexponent]
  rfl

variable {x : Double}

-- Below the hidden bit only zero is a whole number.
theorem magnitude_eq_zero_of_toInt? {n : Int} (hsmall : x.magnitude < hiddenBit)
    (h : x.toInt? = some n) : x.magnitude = 0 ∧ n = 0 := by
  have hquotient : x.magnitude / hiddenBit = 0 := Nat.div_eq_of_lt hsmall
  have hexponent : x.exponent = -1074 := by
    rw [exponent, hquotient]
    rfl
  have hunit : x.magnitude < Nat.pow 2 (-x.exponent).toNat := by
    have hshift : 52 ≤ (-x.exponent).toNat := by omega
    exact Nat.lt_of_lt_of_le hsmall (hiddenBit_eq ▸ Nat.pow_le_pow_right (by decide) hshift)
  have hsignificand : x.significand = x.magnitude := if_pos hsmall
  have hnegative : ¬0 ≤ x.exponent := by omega
  simp only [toInt?, hsignificand, hnegative, ite_false, Nat.mod_eq_of_lt hunit,
    Nat.div_eq_of_lt hunit] at h
  split at h
  · cases h
  split at h
  · rename_i hzero
    refine ⟨hzero, ?_⟩
    cases x.negative <;> simpa using h.symm
  · cases h

-- A whole number that a double is exactly has the magnitude of the double.
theorem nearestMagnitude_of_toInt? {n : Int} (h : x.toInt? = some n) :
    nearestMagnitude n.natAbs = x.magnitude ∧
      (x.negative = true → n ≤ 0) ∧ (x.negative = false → 0 ≤ n) := by
  by_cases hsmall : x.magnitude < hiddenBit
  · obtain ⟨hzero, rfl⟩ := magnitude_eq_zero_of_toInt? hsmall h
    exact ⟨hzero.symm, fun _ => Int.le_refl 0, fun _ => Int.le_refl 0⟩
  -- The magnitude is the exponent field over the significand without its hidden bit.
  have hfields := Nat.div_add_mod x.magnitude hiddenBit
  have hfraction := Nat.mod_lt x.magnitude (show 0 < hiddenBit by decide)
  have hsignificand : x.significand = x.magnitude % hiddenBit + hiddenBit := if_neg hsmall
  have hpositive : 1 ≤ x.magnitude / hiddenBit :=
    (Nat.le_div_iff_mul_le (by decide)).mpr (by omega)
  have hexponent : x.exponent = (x.magnitude / hiddenBit : Nat) - 1075 := by
    rw [exponent, Nat.max_eq_right hpositive]
  generalize x.magnitude / hiddenBit = field at hfields hpositive hexponent
  generalize x.magnitude % hiddenBit = fraction at hfields hfraction hsignificand
  have hlow : hiddenBit ≤ x.significand := by omega
  have hhigh : x.significand < 2 * hiddenBit := by omega
  have hsigned (v : Nat) (hv : nearestMagnitude v = x.magnitude)
      (hn : (if x.negative then -(v : Int) else v) = n) :
      nearestMagnitude n.natAbs = x.magnitude ∧
        (x.negative = true → n ≤ 0) ∧ (x.negative = false → 0 ≤ n) := by
    subst hn
    cases x.negative <;> simp [hv]
  simp only [toInt?] at h
  split at h
  · cases h
  split at h
  · rename_i hle
    refine hsigned _ ?_ (Option.some.inj h)
    change nearestMagnitude (x.significand * 2 ^ x.exponent.toNat) = _
    rw [nearestMagnitude_mul_two_pow hlow hhigh, hexponent, hsignificand]
    rw [hexponent] at hle
    simp only [hiddenBit] at hfields ⊢
    omega
  · rename_i hle
    split at h
    · rename_i hwhole
      refine hsigned _ ?_ (Option.some.inj h)
      have hback : x.significand / Nat.pow 2 (-x.exponent).toNat * 2 ^ (-x.exponent).toNat =
          x.significand := Nat.div_mul_cancel (Nat.dvd_of_mod_eq_zero hwhole)
      have hshift : (-x.exponent).toNat ≤ 52 := by
        have hunit : 2 ^ (-x.exponent).toNat ≤ x.significand :=
          Nat.le_of_dvd (by omega) (Nat.dvd_of_mod_eq_zero hwhole)
        refine Nat.le_of_lt_succ ((Nat.pow_lt_pow_iff_right (a := 2) (by decide)).mp ?_)
        exact Nat.lt_of_le_of_lt hunit hhigh
      rw [nearestMagnitude_of_mul_two_pow (by rwa [hback]) (by rwa [hback]) hshift, hback,
        hexponent, hsignificand]
      rw [hexponent] at hshift hle
      simp only [hiddenBit] at hfields hshift hle ⊢
      omega
    · cases h

end Exact

-- An integer that a double is exactly stands where the double stands.
theorem rank_ofInt_of_toInt? {x : Double} {n : Int} (h : x.toInt? = some n)
    (hn : n.natAbs < UInt64.size) : (ofInt n).rank = x.rank := by
  obtain ⟨hmagnitude, hnonpos, hnonneg⟩ := nearestMagnitude_of_toInt? h
  rw [rank_ofInt hn, hmagnitude, rank]
  cases hnegative : x.negative with
  | true =>
    have hle := hnonpos hnegative
    by_cases hzero : n = 0
    · subst hzero
      rw [← hmagnitude]
      rfl
    · rw [if_pos (by omega), if_pos rfl]
  | false =>
    rw [if_neg (Int.not_lt.mpr (hnonneg hnegative)), if_neg Bool.false_ne_true]

end Conductor.Double
