import Conductor.Arithmetic
import Mathlib.Data.Int.ModEq

namespace Conductor

-- The one 64-bit integer that has the residue of an integer.
def IsResidue (k : Int64) (exact : ℤ) : Prop :=
  ∀ other : Int64, other.toInt ≡ exact [ZMOD 2 ^ 64] ↔ other = k

theorem isResidue_of_toInt {k : Int64} {exact : ℤ} (h : k.toInt = exact.bmod (2 ^ 64)) :
    IsResidue k exact := by
  intro other
  constructor
  · intro hmod
    have hsame : other.toInt.bmod (2 ^ 64) = exact.bmod (2 ^ 64) := by
      rw [← Int.emod_bmod, ← Int.emod_bmod exact]
      exact congrArg (Int.bmod · (2 ^ 64)) hmod
    have hrange : other.toInt.bmod (2 ^ 64) = other.toInt := other.toInt_bmod
    exact Int64.toInt_inj.mp (by rw [h, ← hsame, hrange])
  · rintro rfl
    rw [h]
    exact Int.bmod_emod

section Division

variable (m n : Int64)

theorem ofInt_tdiv_toInt : Int64.ofInt (m.toInt.tdiv n.toInt) = m / n := by
  rw [Int64.ofInt_tdiv m.minValue_le_toInt m.toInt_le n.minValue_le_toInt n.toInt_le,
    Int64.ofInt_toInt, Int64.ofInt_toInt]

-- The quotient and the remainder make up the dividend, also where the quotient wraps.
theorem quotient_mul_add_remainder : m / n * n + m % n = m := by
  have hexact := Int.tdiv_mul_add_tmod m.toInt n.toInt
  have hmod : m % n = Int64.ofInt (m.toInt.tmod n.toInt) := by
    rw [← Int64.toInt_mod, Int64.ofInt_toInt]
  calc
    m / n * n + m % n =
        Int64.ofInt (m.toInt.tdiv n.toInt * n.toInt + m.toInt.tmod n.toInt) := by
      rw [Int64.ofInt_add, Int64.ofInt_mul, ofInt_tdiv_toInt, Int64.ofInt_toInt, hmod]
    _ = m := by rw [hexact, Int64.ofInt_toInt]

variable {m n}

theorem toInt_div_of_fits (h : ¬(m = Int64.minValue ∧ n = -1)) :
    (m / n).toInt = m.toInt.tdiv n.toInt := by
  by_cases hm : m = Int64.minValue
  · exact Int64.toInt_div_of_ne_right m n fun hn => h ⟨hm, hn⟩
  · exact Int64.toInt_div_of_ne_left m n hm

theorem abs_toInt_mod_lt (h : n ≠ 0) : |(m % n).toInt| < |n.toInt| := by
  have hn : n.toInt ≠ 0 := fun hzero => h (Int64.toInt_inj.mp hzero)
  rw [Int64.toInt_mod, Int.abs_eq_natAbs, Int.abs_eq_natAbs, Int.natAbs_tmod]
  exact_mod_cast Nat.mod_lt _ (Int.natAbs_pos.mpr hn)

theorem sign_toInt_mod : m % n = 0 ∨ (m % n).toInt.sign = m.toInt.sign := by
  have hsign : (m % n).toInt.sign = if n.toInt ∣ m.toInt then 0 else m.toInt.sign := by
    rw [Int64.toInt_mod, Int.sign_tmod]
  split at hsign
  · exact .inl (Int64.toInt_inj.mp (Int.sign_eq_zero_iff_zero.mp hsign))
  · exact .inr hsign

end Division

namespace BinaryOp

-- Quotient and remainder of two integers under the operators.
structure Divides (s : Store) (m n q r : Int64) : Prop where
  quotient : div.apply s (.int m) (.int n) = .ok (.int q)
  remainder : mod.apply s (.int m) (.int n) = .ok (.int r)
  restored : ∃ product, mul.apply s (.int q) (.int n) = .ok product ∧
    add.apply s product (.int r) = .ok (.int m)
  truncated : ¬(m = Int64.minValue ∧ n = -1) → q.toInt = m.toInt.tdiv n.toInt
  overflowing : m = Int64.minValue ∧ n = -1 → q = Int64.minValue ∧ r = 0
  small : |r.toInt| < |n.toInt|
  sign : r = 0 ∨ r.toInt.sign = m.toInt.sign

theorem divides_of_ne_zero (s : Store) (m : Int64) {n : Int64} (h : n ≠ 0) :
    Divides s m n (m / n) (m % n) where
  quotient := if_neg (by simp [divides, Value.isZero, h])
  remainder := if_neg (by simp [divides, Value.isZero, h])
  restored :=
    ⟨.int (m / n * n), rfl, congrArg (Except.ok ∘ Value.int) (quotient_mul_add_remainder m n)⟩
  truncated := toInt_div_of_fits
  overflowing := by
    rintro ⟨rfl, rfl⟩
    decide
  small := abs_toInt_mod_lt h
  sign := sign_toInt_mod

-- Sums, differences, products and negations have the residue of the exact result, and a divisor
-- other than zero gives a quotient and a remainder.
theorem exact_modulo (s : Store) (m n : Int64) :
    (∃ k, add.apply s (.int m) (.int n) = .ok (.int k) ∧ IsResidue k (m.toInt + n.toInt)) ∧
      (∃ k, sub.apply s (.int m) (.int n) = .ok (.int k) ∧ IsResidue k (m.toInt - n.toInt)) ∧
      (∃ k, mul.apply s (.int m) (.int n) = .ok (.int k) ∧ IsResidue k (m.toInt * n.toInt)) ∧
      (∃ k, UnaryOp.neg.apply s (.int m) = .ok (.int k) ∧ IsResidue k (-m.toInt)) ∧
      (n ≠ 0 → ∃ q r, Divides s m n q r) := by
  refine ⟨⟨m + n, rfl, ?_⟩, ⟨m - n, rfl, ?_⟩, ⟨m * n, rfl, ?_⟩, ⟨-m, rfl, ?_⟩, fun h => ?_⟩
  · exact isResidue_of_toInt (m.toInt_add n)
  · exact isResidue_of_toInt (m.toInt_sub n)
  · exact isResidue_of_toInt (m.toInt_mul n)
  · exact isResidue_of_toInt m.toInt_neg
  · exact ⟨m / n, m % n, divides_of_ne_zero s m h⟩

-- The one division that overflows.
theorem exact_modulo_minValue : (-1 : Int64) ≠ 0 ∧
    div.apply .empty (.int Int64.minValue) (.int (-1)) = .ok (.int Int64.minValue) ∧
      mod.apply .empty (.int Int64.minValue) (.int (-1)) = .ok (.int 0) := by
  have hne : (-1 : Int64) ≠ 0 := by decide
  obtain ⟨q, r, h⟩ := (exact_modulo .empty Int64.minValue (-1)).2.2.2.2 hne
  obtain ⟨rfl, rfl⟩ := h.overflowing ⟨rfl, rfl⟩
  exact ⟨hne, h.quotient, h.remainder⟩

end BinaryOp

end Conductor
