import Conductor.Archive.Reader

namespace Conductor

inductive OperandType where
  | u8
  | u16
  | u32
  | i16
  | i32
deriving DecidableEq

namespace OperandType

def width : OperandType → Nat
  | u8 => 1
  | u16 | i16 => 2
  | u32 | i32 => 4

-- The number of bytes of numbers one after the other.
def totalWidth : List OperandType → Nat
  | [] => 0
  | t :: rest => t.width + totalWidth rest

def isSigned : OperandType → Bool
  | i16 | i32 => true
  | _ => false

def ofName? : String → Option OperandType
  | "u8" => some u8
  | "u16" => some u16
  | "u32" => some u32
  | "i16" => some i16
  | "i32" => some i32
  | _ => none

-- How many numbers there are of the type.
def modulus (t : OperandType) : Nat := byteCapacity t.width

-- The least number of the type.
def low (t : OperandType) : Int := if t.isSigned then -(t.modulus / 2 : Nat) else 0

def Fits (t : OperandType) (n : Int) : Prop := t.low ≤ n ∧ n < t.low + t.modulus

instance (t : OperandType) (n : Int) : Decidable (t.Fits n) := inferInstanceAs (Decidable (_ ∧ _))

def encode (t : OperandType) (n : Int) : Bytes := leBytes t.width (n % t.modulus).toNat

-- The number of the type that is congruent to `n`.
def normalize (t : OperandType) (n : Nat) : Int := (n - t.low) % t.modulus + t.low

theorem modulus_pos (t : OperandType) : 0 < t.modulus := byteCapacity_pos t.width

theorem fits_zero (t : OperandType) : t.Fits 0 := by cases t <;> decide

theorem fits_normalize (t : OperandType) (n : Nat) : t.Fits (t.normalize n) := by
  have hpos : (0 : Int) < t.modulus := by exact_mod_cast t.modulus_pos
  have hlow := Int.emod_nonneg ((n : Int) - t.low) (Int.ne_of_gt hpos)
  have hhigh := Int.emod_lt_of_pos ((n : Int) - t.low) hpos
  unfold Fits normalize
  omega

-- A number of the type from the front of the bytes, and the rest.
def decode? (t : OperandType) (bytes : Bytes) : Option ({ n : Int // t.Fits n } × Bytes) :=
  (Archive.split? t.width bytes).map fun (front, rest) =>
    (⟨t.normalize (leNat front), t.fits_normalize _⟩, rest)

theorem length_of_decode? {t : OperandType} {bytes rest : Bytes} {n : { n : Int // t.Fits n }}
    (h : t.decode? bytes = some (n, rest)) : bytes.length = t.width + rest.length := by
  obtain ⟨⟨front, tail⟩, hsplit, heq⟩ := Option.map_eq_some_iff.mp h
  obtain ⟨rfl, hfront⟩ := Archive.append_of_split? hsplit
  obtain rfl : tail = rest := (Prod.mk.inj heq).2
  rw [List.length_append, hfront]

theorem length_encode (t : OperandType) (n : Int) : (t.encode n).length = t.width := by
  simp [encode]

-- A number of the type reads back, whatever follows it.
theorem decode?_encode (t : OperandType) (n : Int) (h : t.Fits n) (rest : Bytes) :
    t.decode? (t.encode n ++ rest) = some (⟨n, h⟩, rest) := by
  have hpos : (0 : Int) < t.modulus := by exact_mod_cast t.modulus_pos
  have hnonneg := Int.emod_nonneg n (Int.ne_of_gt hpos)
  have hlt := Int.emod_lt_of_pos n hpos
  have hbound : (n % t.modulus).toNat < byteCapacity t.width := by
    have hm : (t.modulus : Int) = byteCapacity t.width := rfl
    omega
  have hsplit := Archive.split?_append (t.encode n) rest
  rw [length_encode] at hsplit
  have hvalue : t.normalize (leNat (t.encode n)) = n := by
    rw [encode, leNat_leBytes _ _ hbound, normalize, Int.toNat_of_nonneg hnonneg]
    have hshift : (n % t.modulus - t.low) % t.modulus = (n - t.low) % t.modulus := by
      rw [Int.sub_emod, Int.emod_emod_of_dvd _ (Int.dvd_refl _), ← Int.sub_emod]
    have hsmall : (n - t.low) % t.modulus = n - t.low := by
      obtain ⟨hlow, hhigh⟩ := h
      exact Int.emod_eq_of_lt (by omega) (by omega)
    rw [hshift, hsmall]
    omega
  simp [decode?, hsplit, hvalue]

end OperandType

end Conductor
