namespace Conductor

-- A finite sequence of bytes.
abbrev Bytes := List UInt8

-- How many numbers there are of `width` bytes.
def byteCapacity : Nat → Nat
  | 0 => 1
  | width + 1 => 256 * byteCapacity width

-- The low `width` bytes of a number, least significant first.
def leBytes : Nat → Nat → Bytes
  | 0, _ => []
  | width + 1, n => UInt8.ofNat n :: leBytes width (n / 256)

-- The number whose base-256 digits are the given bytes, least significant first.
def leNat : Bytes → Nat
  | [] => 0
  | byte :: rest => byte.toNat + 256 * leNat rest

@[simp]
theorem length_leBytes (width n : Nat) : (leBytes width n).length = width := by
  induction width generalizing n with
  | zero => rfl
  | succ width ih => simp [leBytes, ih]

theorem byteCapacity_pos (width : Nat) : 0 < byteCapacity width := by
  induction width with
  | zero => decide
  | succ width ih => exact Nat.mul_pos (by decide) ih

theorem leNat_leBytes (width n : Nat) (h : n < byteCapacity width) :
    leNat (leBytes width n) = n := by
  induction width generalizing n with
  | zero => simp [byteCapacity] at h; simp [leBytes, leNat, h]
  | succ width ih =>
    have hdiv : n / 256 < byteCapacity width := Nat.div_lt_of_lt_mul h
    have hbyte : (UInt8.ofNat n).toNat = n % 256 := by simp
    rw [leBytes, leNat, ih _ hdiv, hbyte]
    exact Nat.mod_add_div n 256

theorem leNat_lt (bytes : Bytes) : leNat bytes < byteCapacity bytes.length := by
  induction bytes with
  | nil => simp [leNat, byteCapacity]
  | cons byte rest ih =>
    have hbyte : byte.toNat < 256 := byte.toNat_lt
    simp only [leNat, List.length_cons, byteCapacity]
    omega

theorem leBytes_leNat (bytes : Bytes) : leBytes bytes.length (leNat bytes) = bytes := by
  induction bytes with
  | nil => rfl
  | cons byte rest ih =>
    have hbyte : byte.toNat < 256 := byte.toNat_lt
    have hdiv : (byte.toNat + 256 * leNat rest) / 256 = leNat rest := by omega
    have hhead : UInt8.ofNat (byte.toNat + 256 * leNat rest) = byte := by
      apply UInt8.toNat_inj.mp
      simp only [UInt8.toNat_ofNat']
      omega
    rw [List.length_cons, leNat, leBytes, hdiv, hhead, ih]

end Conductor
